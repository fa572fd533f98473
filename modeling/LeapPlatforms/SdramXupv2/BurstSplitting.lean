import LeapPlatforms.Foundation.Tiling
import LeapPlatforms.SdramXupv2.Npi

/-!
# Commands of a burst request

The wrapper cuts a request into the greatest aligned bursts. The controller sees the commands one
after the other: of a write the words first and then the address, of a write of one word the address
first, and of a read the address.

## Main definitions

* `split` — the commands of a request
* `Block`, `Blocks` — what the controller sees of commands that are done
* `Begun` — what it sees of one that is not
* `BurstRequest.Partitioned`, `Npi.Faithful`

## Main results

* `partitioned_split`
* `bursts_faithful`
-/

namespace LeapPlatforms

namespace SdramXupv2

open Tiling

variable {P : Params} {s t : Npi} {r : Rule}

/-! ### The commands of a request -/

/-- The command for a burst at a word. -/
def commandFor (isRead : Bool) (address : ℕ) (b : NpiBurst) : NpiCommand :=
  if isRead then .readCommand (8 * address) b else .writeCommand (8 * address) b false

theorem words_burstFor_le {n a : ℕ} (hn : 0 < n) : (burstFor n a).words ≤ n := by
  rw [burstFor]
  split_ifs with h32 h16 h8 h4 h2
  · exact h32.1
  · exact h16.1
  · exact h8.1
  · exact h4.1
  · exact h2.1
  · exact hn

/-- A burst is aligned. -/
theorem mod_burstFor (n a : ℕ) : a % (burstFor n a).words = 0 := by
  rw [burstFor]
  split_ifs with h32 h16 h8 h4 h2
  · exact h32.2
  · exact h16.2
  · exact h8.2
  · exact h4.2
  · exact h2.2
  · exact Nat.mod_one a

/-- The words of the burst for a range. -/
def burstWords (a n : ℕ) : ℕ := (burstFor n a).words

theorem burstWords_spec (a n : ℕ) (hn : 0 < n) : 0 < burstWords a n ∧ burstWords a n ≤ n :=
  ⟨(burstFor n a).words_pos, words_burstFor_le hn⟩

/-- The commands for a range of words. -/
def split (isRead : Bool) (address n : ℕ) : List NpiCommand :=
  if 0 < n then
    commandFor isRead address (burstFor n address) ::
      split isRead (address + (burstFor n address).words) (n - (burstFor n address).words)
  else []
termination_by n
decreasing_by
  have hpos := (burstFor n address).words_pos
  omega

@[simp] theorem split_zero (isRead : Bool) (a : ℕ) : split isRead a 0 = [] := by
  rw [split, if_neg (Nat.lt_irrefl 0)]

theorem split_of_pos {isRead : Bool} {a n : ℕ} (hn : 0 < n) : split isRead a n =
    commandFor isRead a (burstFor n a) ::
      split isRead (a + (burstFor n a).words) (n - (burstFor n a).words) := by
  rw [split, if_pos hn]

def NpiCommand.isRead : NpiCommand → Bool
  | .readCommand _ _ => true
  | .writeCommand _ _ _ => false

def NpiCommand.addr : NpiCommand → ℕ
  | .readCommand addr _ => addr
  | .writeCommand addr _ _ => addr

def NpiCommand.size : NpiCommand → NpiBurst
  | .readCommand _ size => size
  | .writeCommand _ size _ => size

def NpiCommand.rmw : NpiCommand → Bool
  | .readCommand _ _ => false
  | .writeCommand _ _ rmw => rmw

/-- The words that a command is for; a word has eight bytes. -/
def NpiCommand.piece (c : NpiCommand) : Piece := ⟨c.addr / 8, c.size.words⟩

theorem commandFor_eq (isRead : Bool) (a : ℕ) (b : NpiBurst) :
    (commandFor isRead a b).isRead = isRead ∧ (commandFor isRead a b).rmw = false ∧
      (commandFor isRead a b).addr = 8 * a ∧ (commandFor isRead a b).piece = ⟨a, b.words⟩ := by
  have hdiv : 8 * a / 8 = a := Nat.mul_div_cancel_left a (by decide)
  rw [commandFor, NpiCommand.piece]
  cases isRead with
  | true => exact ⟨rfl, rfl, rfl, by simp [NpiCommand.addr, NpiCommand.size, hdiv]⟩
  | false => exact ⟨rfl, rfl, rfl, by simp [NpiCommand.addr, NpiCommand.size, hdiv]⟩

theorem pieces_split (isRead : Bool) (a n : ℕ) : (split isRead a n).map NpiCommand.piece =
    cutBy burstWords a n := by
  induction n using Nat.strong_induction_on generalizing a with
  | _ n ih =>
    rcases Nat.eq_zero_or_pos n with rfl | hn
    · rw [split_zero, cutBy_zero]
      rfl
    · have hpos := (burstFor n a).words_pos
      rw [split_of_pos hn, cutBy_of_pos (burstWords_spec a n hn), List.map_cons,
        (commandFor_eq isRead a (burstFor n a)).2.2.2, ih _ (by omega), burstWords]

theorem of_mem_split {isRead : Bool} {a n : ℕ} {c : NpiCommand} (hc : c ∈ split isRead a n) :
    c.isRead = isRead ∧ c.rmw = false ∧ c.addr = 8 * c.piece.start := by
  induction n using Nat.strong_induction_on generalizing a with
  | _ n ih =>
    rcases Nat.eq_zero_or_pos n with rfl | hn
    · rw [split_zero] at hc
      cases hc
    · have hpos := (burstFor n a).words_pos
      rw [split_of_pos hn] at hc
      rcases List.mem_cons.mp hc with rfl | hc
      · obtain ⟨hread, hrmw, haddr, hpiece⟩ := commandFor_eq isRead a (burstFor n a)
        exact ⟨hread, hrmw, by rw [haddr, hpiece]⟩
      · exact ih _ (by omega) hc

/-- The commands are for the words of the request, in order and each once; each is a burst of a
power of two words, 32 at most, and aligned. -/
structure BurstRequest.Partitioned (r : BurstRequest) (cs : List NpiCommand) : Prop where
  tiles : Tiles r.command.addr (r.command.addr + r.command.size) (cs.map NpiCommand.piece)
  kind : ∀ c ∈ cs, c.isRead = r.isRead
  addr : ∀ c ∈ cs, c.addr = 8 * c.piece.start
  size : ∀ c ∈ cs, c.piece.size = 2 ^ c.size.pack ∧ c.piece.size ≤ 32
  aligned : ∀ c ∈ cs, c.piece.start % c.piece.size = 0

/-- The commands of a request. -/
def BurstRequest.split (r : BurstRequest) : List NpiCommand :=
  SdramXupv2.split r.isRead r.command.addr r.command.size

theorem partitioned_split (r : BurstRequest) : r.Partitioned r.split where
  tiles := by
    rw [BurstRequest.split, pieces_split]
    exact tiles_cutBy burstWords_spec
  kind c hc := (of_mem_split hc).1
  addr c hc := (of_mem_split hc).2.2
  size c _ := ⟨rfl, c.size.words_le⟩
  aligned c hc := by
    have hpiece : c.piece ∈ (SdramXupv2.split r.isRead r.command.addr r.command.size).map
        NpiCommand.piece := List.mem_map_of_mem hc
    rw [pieces_split] at hpiece
    obtain ⟨m, hm⟩ := exists_of_mem_cutBy hpiece
    rw [hm]
    exact mod_burstFor m _

/-- What was commanded, and what is to be commanded for the last request. -/
structure Npi.Splitting (P : Params) (s : Npi) : Prop where
  commands : s.commands ++
    split s.wrapper.handlingRead s.wrapper.address s.wrapper.wordsRemaining =
      s.requests.flatMap BurstRequest.split
  fits : 0 < s.wrapper.wordsRemaining →
    s.wrapper.address + s.wrapper.wordsRemaining ≤ 2 ^ P.addressSize

/-- No command is a read-modify-write. -/
theorem Npi.Splitting.rmw_eq (h : s.Splitting P) {c : NpiCommand} (hc : c ∈ s.commands) :
    c.rmw = false := by
  have hmem : c ∈ s.requests.flatMap BurstRequest.split := by
    rw [← h.commands]
    exact List.mem_append_left _ hc
  obtain ⟨r, -, hr⟩ := List.mem_flatMap.mp hmem
  exact (of_mem_split hr).2.1

/-- A command takes the next burst from what is to be commanded. -/
theorem Npi.Splitting.issue (h : s.Splitting P) {b : NpiBurst} (hpos : 0 < s.wrapper.wordsRemaining)
    (hb : b = burstFor s.wrapper.wordsRemaining s.wrapper.address) {c : NpiCommand}
    (hc : c = commandFor s.wrapper.handlingRead s.wrapper.address b) :
    (s.issue P c b).Splitting P := by
  have hfits := h.fits hpos
  have hle : b.words ≤ s.wrapper.wordsRemaining := hb ▸ words_burstFor_le hpos
  -- the address wraps only when nothing is left
  have haddress : 0 < s.wrapper.wordsRemaining - b.words →
      (s.wrapper.address + b.words) % 2 ^ P.addressSize = s.wrapper.address + b.words :=
    fun hleft => Nat.mod_eq_of_lt (by omega)
  have hrest : split s.wrapper.handlingRead ((s.wrapper.address + b.words) % 2 ^ P.addressSize)
      (s.wrapper.wordsRemaining - b.words) =
        split s.wrapper.handlingRead (s.wrapper.address + b.words)
          (s.wrapper.wordsRemaining - b.words) := by
    rcases Nat.eq_zero_or_pos (s.wrapper.wordsRemaining - b.words) with hzero | hleft
    · rw [hzero, split_zero, split_zero]
    · rw [haddress hleft]
  refine ⟨?_, fun hleft => ?_⟩
  · change s.commands ++ [c] ++ split s.wrapper.handlingRead
      ((s.wrapper.address + b.words) % 2 ^ P.addressSize) (s.wrapper.wordsRemaining - b.words) =
        s.requests.flatMap BurstRequest.split
    rw [hrest, ← h.commands, split_of_pos hpos, ← hb, ← hc, List.append_assoc]
    rfl
  · change (s.wrapper.address + b.words) % 2 ^ P.addressSize + (s.wrapper.wordsRemaining - b.words) ≤
      2 ^ P.addressSize
    rw [haddress hleft]
    omega

theorem Npi.Splitting.step (h : s.Splitting P) (hallowed : r.Allowed P) (hr : Step P s r t) :
    t.Splitting P := by
  cases hr with
  | burstReq req hzero =>
    have hcommands := h.commands
    rw [hzero, split_zero, List.append_nil] at hcommands
    refine ⟨?_, fun _ => hallowed.2.2⟩
    change s.commands ++ req.split = (s.requests ++ [req]).flatMap BurstRequest.split
    rw [hcommands, List.flatMap_append, List.flatMap_singleton]
  | @handleRead b hread hpos hnone hb =>
    have hissue := h.issue (c := .readCommand (8 * s.wrapper.address) b) hpos hb
      (by rw [commandFor, hread, if_pos rfl])
    exact ⟨hissue.commands, hissue.fits⟩
  | @handleWrite b hwrite hpos hb =>
    exact h.issue hpos hb (by rw [commandFor, hwrite, if_neg Bool.false_ne_true])
  | _ => exact ⟨h.commands, h.fits⟩

/-! ### What the controller sees -/

/-- The address of a command is requested, and not acknowledged for some clocks. -/
def waiting (c : NpiCommand) (k : ℕ) : List Signal := List.replicate k (.addrReq c.addrReq false)

/-- It is requested until it is acknowledged. -/
def requested (c : NpiCommand) (k : ℕ) : List Signal := waiting c k ++ [.addrReq c.addrReq true]

/-- Words are pushed, with all their bytes enabled. -/
def pushes (ws : List (BitVec 64)) : List Signal := ws.map fun w => .wrFifoPush w 0xff

/-- What the controller sees of a command, with the words that are written. -/
inductive Block : NpiCommand → List (BitVec 64) → List Signal → Prop
  | read (addr : ℕ) (size : NpiBurst) (k : ℕ) :
    Block (.readCommand addr size) [] (requested (.readCommand addr size) k)
  /-- The words come before the address. -/
  | burst (addr k : ℕ) {size : NpiBurst} {ws : List (BitVec 64)} (hsize : size ≠ .burst1)
      (hws : ws.length = size.words) :
    Block (.writeCommand addr size false) ws
      (pushes ws ++ requested (.writeCommand addr size false) k)
  /-- The word comes behind the address. -/
  | single (addr k : ℕ) (w : BitVec 64) :
    Block (.writeCommand addr .burst1 false) [w]
      (requested (.writeCommand addr .burst1 false) k ++ pushes [w])

/-- What it sees of commands, one after the other. -/
inductive Blocks : List NpiCommand → List (BitVec 64) → List Signal → Prop
  | nil : Blocks [] [] []
  | snoc {cs : List NpiCommand} {ws ws' : List (BitVec 64)} {l l' : List Signal} {c : NpiCommand}
      (h : Blocks cs ws l) (hc : Block c ws' l') : Blocks (cs ++ [c]) (ws ++ ws') (l ++ l')

/-- What it sees at the beginning of a command. -/
def Begun (c : NpiCommand) (ws : List (BitVec 64)) (l : List Signal) : Prop :=
  ∃ ws' l', Block c (ws ++ ws') (l ++ l')

/-- The words and signals of the command that the master works on. -/
def Current (state : InboundProcessState) (head : Option NpiCommand) (xferCount : ℕ)
    (ws : List (BitVec 64)) (l : List Signal) : Prop :=
  match state with
  | .processCmd => ws = [] ∧ (l = [] ∨
      ∃ addr size k, head = some (.readCommand addr size) ∧ l = waiting (.readCommand addr size) k)
  | .processWrite => ∃ addr size, head = some (.writeCommand addr size false) ∧ size ≠ .burst1 ∧
      ws.length + xferCount + 1 = size.words ∧ l = pushes ws
  | .sendWrite => ∃ addr size k, head = some (.writeCommand addr size false) ∧ size ≠ .burst1 ∧
      ws.length = size.words ∧ l = pushes ws ++ waiting (.writeCommand addr size false) k
  | .processWriteSpecial => ws = [] ∧ ∃ addr k,
      head = some (.writeCommand addr .burst1 false) ∧ l = waiting (.writeCommand addr .burst1 false) k
  | .processWriteSpecialData => ws = [] ∧ ∃ addr k,
      head = some (.writeCommand addr .burst1 false) ∧
        l = requested (.writeCommand addr .burst1 false) k

theorem waiting_succ (c : NpiCommand) (k : ℕ) :
    waiting c k ++ [.addrReq c.addrReq false] = waiting c (k + 1) := List.replicate_succ'.symm

theorem pushes_append (ws ws' : List (BitVec 64)) :
    pushes (ws ++ ws') = pushes ws ++ pushes ws' := List.map_append

/-- Only the first command matters. -/
theorem Current.mono {state : InboundProcessState} {head head' : Option NpiCommand} {n : ℕ}
    {ws : List (BitVec 64)} {l : List Signal} (h : Current state head n ws l)
    (hhead : ∀ c, head = some c → head' = some c) : Current state head' n ws l := by
  cases state with
  | processCmd =>
    obtain ⟨hws, hl | ⟨addr, size, k, hread, hl⟩⟩ := h
    · exact ⟨hws, .inl hl⟩
    · exact ⟨hws, .inr ⟨addr, size, k, hhead _ hread, hl⟩⟩
  | processWrite =>
    obtain ⟨addr, size, hwrite, hsize, hcount, hl⟩ := h
    exact ⟨addr, size, hhead _ hwrite, hsize, hcount, hl⟩
  | sendWrite =>
    obtain ⟨addr, size, k, hwrite, hsize, hlen, hl⟩ := h
    exact ⟨addr, size, k, hhead _ hwrite, hsize, hlen, hl⟩
  | processWriteSpecial =>
    obtain ⟨hws, addr, k, hwrite, hl⟩ := h
    exact ⟨hws, addr, k, hhead _ hwrite, hl⟩
  | processWriteSpecialData =>
    obtain ⟨hws, addr, k, hwrite, hl⟩ := h
    exact ⟨hws, addr, k, hhead _ hwrite, hl⟩

/-- What is done and what is under way. -/
structure Npi.Serving (s : Npi) (done : List NpiCommand) (ws wsNow : List (BitVec 64))
    (l lNow : List Signal) : Prop where
  commands : s.commands = done ++ s.master.commandQ
  given : s.given = ws ++ wsNow ++ s.master.writeQ.map NpiWriteWord.data
  signals : s.signals = l ++ lNow
  blocks : Blocks done ws l
  current : Current s.master.state s.master.commandQ.head? s.master.xferCount wsNow lNow

variable {done : List NpiCommand} {ws wsNow : List (BitVec 64)} {l lNow : List Signal}

/-- A command joins the queue. -/
theorem Npi.Serving.issue (h : s.Serving done ws wsNow l lNow) (c : NpiCommand) (b : NpiBurst) :
    (s.issue P c b).Serving done ws wsNow l lNow where
  commands := by
    change s.commands ++ [c] = done ++ (s.master.commandQ ++ [c])
    rw [h.commands, List.append_assoc]
  given := h.given
  signals := h.signals
  blocks := h.blocks
  current := by
    refine Current.mono h.current fun d hd => ?_
    change (s.master.commandQ ++ [c]).head? = some d
    rw [List.head?_append, hd]
    rfl

/-- The last signal of a command. -/
theorem Npi.Serving.finish {c : NpiCommand} {rest : List NpiCommand} (wsLast : List (BitVec 64))
    {lLast : List Signal} (h : s.Serving done ws wsNow l lNow)
    (hq : s.master.commandQ = c :: rest) (hc : Block c (wsNow ++ wsLast) (lNow ++ lLast))
    (hcommands : t.commands = s.commands) (hcommandQ : t.master.commandQ = rest)
    (hgiven : t.given = s.given)
    (hwriteQ : s.master.writeQ.map NpiWriteWord.data =
      wsLast ++ t.master.writeQ.map NpiWriteWord.data)
    (hsignals : t.signals = s.signals ++ lLast) (hstate : t.master.state = .processCmd) :
    t.Serving (done ++ [c]) (ws ++ (wsNow ++ wsLast)) [] (l ++ (lNow ++ lLast)) [] where
  commands := by
    rw [hcommands, hcommandQ, h.commands, hq, List.append_assoc]
    rfl
  given := by
    rw [hgiven, h.given, hwriteQ]
    simp only [List.append_assoc, List.nil_append]
  signals := by
    rw [hsignals, h.signals, List.append_assoc, List.append_nil]
  blocks := h.blocks.snoc hc
  current := by
    rw [hstate]
    exact ⟨rfl, .inl rfl⟩

/-- Some commands are done and one may be under way. -/
def Npi.Served (s : Npi) : Prop := ∃ done ws wsNow l lNow, s.Serving done ws wsNow l lNow

/-- The address of a read. -/
theorem Npi.Serving.readRequest (h : s.Serving done ws wsNow l lNow) {addr : ℕ} {size : NpiBurst}
    {rest : List NpiCommand} {addrAck : Bool}
    (hq : s.master.commandQ = .readCommand addr size :: rest)
    (hstate : s.master.state = .processCmd)
    (ht : t = { s with
      master := { s.master with commandQ := if addrAck then rest else s.master.commandQ }
      signals := s.signals ++ [.addrReq (NpiCommand.readCommand addr size).addrReq addrAck] }) :
    t.Served := by
  subst ht
  have hcurrent := h.current
  rw [hstate, hq] at hcurrent
  obtain ⟨hws, hl⟩ := hcurrent
  obtain ⟨k, hk⟩ : ∃ k, lNow = waiting (.readCommand addr size) k := by
    rcases hl with hl | ⟨addr', size', k, hhead, hl⟩
    · exact ⟨0, hl⟩
    · obtain ⟨rfl, rfl⟩ := NpiCommand.readCommand.inj (Option.some.inj hhead)
      exact ⟨k, hl⟩
  subst hws hk
  cases addrAck with
  | true =>
    have hblock := Block.read addr size k
    exact ⟨_, _, _, _, _, h.finish [] hq hblock rfl rfl rfl rfl rfl hstate⟩
  | false =>
    refine ⟨done, ws, [], l, waiting (.readCommand addr size) (k + 1), h.commands, h.given, ?_, h.blocks, ?_⟩
    · change s.signals ++ [_] = _
      rw [h.signals, List.append_assoc, waiting_succ]
    · change Current s.master.state s.master.commandQ.head? _ _ _
      rw [hstate, hq]
      exact ⟨rfl, .inr ⟨addr, size, k + 1, rfl, rfl⟩⟩

/-- A write starts when its words are there. -/
theorem Npi.Serving.startWrite (h : s.Serving done ws wsNow l lNow) {addr : ℕ} {size : NpiBurst}
    {rest : List NpiCommand} (hq : s.master.commandQ = .writeCommand addr size false :: rest)
    (hstate : s.master.state = .processCmd)
    (ht : t = { s with master := { s.master with
      xferCount := size.burstCountMax
      state := if size = .burst1 then .processWriteSpecial else .processWrite } }) : t.Served := by
  subst ht
  have hcurrent := h.current
  rw [hstate, hq] at hcurrent
  obtain ⟨hws, hl⟩ := hcurrent
  have hnil : lNow = [] := by
    rcases hl with hl | ⟨addr', size', k, hhead, -⟩
    · exact hl
    · cases hhead
  subst hws hnil
  refine ⟨done, ws, [], l, [], h.commands, h.given, h.signals, h.blocks, ?_⟩
  change Current (if size = .burst1 then _ else _) s.master.commandQ.head? size.burstCountMax _ _
  rw [hq]
  by_cases hsize : size = .burst1
  · subst hsize
    exact ⟨rfl, addr, 0, rfl, rfl⟩
  · rw [if_neg hsize]
    refine ⟨addr, size, rfl, hsize, ?_, rfl⟩
    rw [List.length_nil, Nat.zero_add]
    exact size.burstCountMax_eq

/-- A word of a burst. -/
theorem Npi.Serving.pushWord (h : s.Serving done ws wsNow l lNow) {c : NpiCommand}
    {rest : List NpiCommand} {w : NpiWriteWord} {queue : List NpiWriteWord}
    (hq : s.master.commandQ = c :: rest) (hw : s.master.writeQ = w :: queue)
    (hstate : s.master.state = .processWrite)
    (ht : t = { s with
      master := { s.master with
        state := if s.master.xferCount = 0 then .sendWrite else .processWrite
        xferCount := s.master.xferCount - 1
        writeQ := queue }
      signals := s.signals ++ [.wrFifoPush w.data (c.byteEnables w)] }) : t.Served := by
  subst ht
  have hcurrent := h.current
  rw [hstate, hq] at hcurrent
  obtain ⟨addr, size, hhead, hsize, hcount, rfl⟩ := hcurrent
  obtain rfl : c = .writeCommand addr size false := Option.some.inj hhead
  refine ⟨done, ws, wsNow ++ [w.data], l, pushes (wsNow ++ [w.data]), h.commands, ?_, ?_, h.blocks,
    ?_⟩
  · change s.given = _
    rw [h.given, hw]
    simp only [List.map_cons, List.append_assoc, List.singleton_append]
  · change s.signals ++ [Signal.wrFifoPush w.data 0xff] = _
    rw [h.signals, List.append_assoc, pushes_append]
    rfl
  · change Current (if s.master.xferCount = 0 then _ else _) s.master.commandQ.head?
      (s.master.xferCount - 1) _ _
    have hlen : (wsNow ++ [w.data]).length = wsNow.length + 1 := List.length_append
    rw [hq]
    by_cases hzero : s.master.xferCount = 0
    · rw [if_pos hzero]
      refine ⟨addr, size, 0, rfl, hsize, by omega, ?_⟩
      rw [waiting, List.replicate_zero, List.append_nil]
    · rw [if_neg hzero]
      exact ⟨addr, size, rfl, hsize, by omega, rfl⟩

/-- The address of a burst. -/
theorem Npi.Serving.sendWrite (h : s.Serving done ws wsNow l lNow) {c : NpiCommand}
    {rest : List NpiCommand} {addrAck : Bool} (hq : s.master.commandQ = c :: rest)
    (hstate : s.master.state = .sendWrite)
    (ht : t = { s with
      master := { s.master with
        state := if addrAck then .processCmd else .sendWrite
        commandQ := if addrAck then rest else s.master.commandQ }
      signals := s.signals ++ [.addrReq c.addrReq addrAck] }) : t.Served := by
  subst ht
  have hcurrent := h.current
  rw [hstate, hq] at hcurrent
  obtain ⟨addr, size, k, hhead, hsize, hlen, rfl⟩ := hcurrent
  obtain rfl : c = .writeCommand addr size false := Option.some.inj hhead
  cases addrAck with
  | true =>
    have hblock : Block (.writeCommand addr size false) (wsNow ++ [])
        (pushes wsNow ++ waiting (.writeCommand addr size false) k ++
          [.addrReq (NpiCommand.writeCommand addr size false).addrReq true]) := by
      rw [List.append_nil, List.append_assoc]
      exact .burst addr k hsize hlen
    exact ⟨_, _, _, _, _, h.finish _ hq hblock rfl rfl rfl rfl rfl rfl⟩
  | false =>
    refine ⟨done, ws, wsNow, l, pushes wsNow ++ waiting (.writeCommand addr size false) (k + 1),
      h.commands, h.given, ?_, h.blocks, ?_⟩
    · change s.signals ++ [_] = _
      rw [h.signals, List.append_assoc, List.append_assoc, waiting_succ]
    · change Current .sendWrite s.master.commandQ.head? _ _ _
      rw [hq]
      exact ⟨addr, size, k + 1, rfl, hsize, hlen, rfl⟩

/-- The address of a write of one word. -/
theorem Npi.Serving.sendSpecial (h : s.Serving done ws wsNow l lNow) {c : NpiCommand}
    {rest : List NpiCommand} {addrAck : Bool} (hq : s.master.commandQ = c :: rest)
    (hstate : s.master.state = .processWriteSpecial)
    (ht : t = { s with
      master := { s.master with
        state := if addrAck then .processWriteSpecialData else .processWriteSpecial }
      signals := s.signals ++ [.addrReq c.addrReq addrAck] }) : t.Served := by
  subst ht
  have hcurrent := h.current
  rw [hstate, hq] at hcurrent
  obtain ⟨rfl, addr, k, hhead, rfl⟩ := hcurrent
  obtain rfl : c = .writeCommand addr .burst1 false := Option.some.inj hhead
  cases addrAck with
  | true =>
    refine ⟨done, ws, [], l, requested (.writeCommand addr .burst1 false) k, h.commands, h.given, ?_,
      h.blocks, ?_⟩
    · change s.signals ++ [_] = _
      rw [h.signals, List.append_assoc, requested]
    · change Current .processWriteSpecialData s.master.commandQ.head? _ _ _
      rw [hq]
      exact ⟨rfl, addr, k, rfl, rfl⟩
  | false =>
    refine ⟨done, ws, [], l, waiting (.writeCommand addr .burst1 false) (k + 1), h.commands, h.given,
      ?_, h.blocks, ?_⟩
    · change s.signals ++ [_] = _
      rw [h.signals, List.append_assoc, waiting_succ]
    · change Current .processWriteSpecial s.master.commandQ.head? _ _ _
      rw [hq]
      exact ⟨rfl, addr, k + 1, rfl, rfl⟩

/-- The word of a write of one word. -/
theorem Npi.Serving.pushSpecial (h : s.Serving done ws wsNow l lNow) {c : NpiCommand}
    {rest : List NpiCommand} {w : NpiWriteWord} {queue : List NpiWriteWord}
    (hq : s.master.commandQ = c :: rest) (hw : s.master.writeQ = w :: queue)
    (hstate : s.master.state = .processWriteSpecialData)
    (ht : t = { s with
      master := { s.master with state := .processCmd, commandQ := rest, writeQ := queue }
      signals := s.signals ++ [.wrFifoPush w.data (c.byteEnables w)] }) : t.Served := by
  subst ht
  have hcurrent := h.current
  rw [hstate, hq] at hcurrent
  obtain ⟨rfl, addr, k, hhead, rfl⟩ := hcurrent
  obtain rfl : c = .writeCommand addr .burst1 false := Option.some.inj hhead
  have hblock := Block.single addr k w.data
  refine ⟨_, _, _, _, _, h.finish [w.data] hq hblock rfl rfl rfl ?_ rfl rfl⟩
  rw [hw]
  rfl

/-- **Serving.** Every step keeps the commands, the words and the signals in order. -/
theorem Npi.Served.step (h : s.Served) (hplain : ∀ c ∈ s.commands, c.rmw = false)
    (hr : Step P s r t) : t.Served := by
  obtain ⟨done, ws, wsNow, l, lNow, h⟩ := h
  have hhead : ∀ {c rest}, s.master.commandQ = c :: rest → c.rmw = false := by
    intro c rest hq
    refine hplain c ?_
    rw [h.commands, hq]
    exact List.mem_append_right _ List.mem_cons_self
  cases hr with
  | @handleRead b hread hpos hnone hb =>
    have hissue := h.issue (P := P) (.readCommand (8 * s.wrapper.address) b) b
    exact ⟨done, ws, wsNow, l, lNow, hissue.commands, hissue.given, hissue.signals, hissue.blocks,
      hissue.current⟩
  | @handleWrite b hwrite hpos hb => exact ⟨done, ws, wsNow, l, lNow, h.issue _ b⟩
  | writeData data =>
    refine ⟨done, ws, wsNow, l, lNow, h.commands, ?_, h.signals, h.blocks, h.current⟩
    change s.given ++ [data] = _
    rw [h.given, List.map_append]
    exact List.append_assoc _ _ _
  | readRequest addrAck hq hstate => exact h.readRequest hq hstate rfl
  | startWrite addrAck hq hstate hready =>
    obtain rfl : _ = false := hhead hq
    exact h.startWrite hq hstate rfl
  | pushWord hq hw hstate => exact h.pushWord hq hw hstate rfl
  | sendWrite addrAck hq hstate => exact h.sendWrite hq hstate rfl
  | sendSpecial addrAck hq hstate => exact h.sendSpecial hq hstate rfl
  | pushSpecial hq hw hstate => exact h.pushSpecial hq hw hstate rfl
  | giveUp r hq hstate =>
    -- the master is in a state of a write only for a write
    have hcurrent := h.current
    rw [hq] at hcurrent
    rcases hstate with hstate | hstate
    · rw [hstate] at hcurrent
      obtain ⟨addr, size, k, hwrite, -⟩ := hcurrent
      cases hwrite
    · rw [hstate] at hcurrent
      obtain ⟨-, addr, k, hwrite, -⟩ := hcurrent
      cases hwrite
  | _ => exact ⟨done, ws, wsNow, l, lNow, h.commands, h.given, h.signals, h.blocks, h.current⟩

theorem served_start (xferCount : ℕ) : Npi.Served { master := { xferCount } } :=
  ⟨[], [], [], [], [], rfl, rfl, rfl, .nil, rfl, .inl rfl⟩

/-- What is under way is the beginning of a block. -/
theorem Current.begun {state : InboundProcessState} {head : Option NpiCommand} {n : ℕ}
    {ws : List (BitVec 64)} {l : List Signal} (h : Current state head n ws l) :
    ws = [] ∧ l = [] ∨ ∃ c, head = some c ∧ Begun c ws l := by
  cases state with
  | processCmd =>
    obtain ⟨rfl, rfl | ⟨addr, size, k, hhead, rfl⟩⟩ := h
    · exact .inl ⟨rfl, rfl⟩
    · exact .inr ⟨_, hhead, [], _, .read addr size k⟩
  | processWrite =>
    obtain ⟨addr, size, hhead, hsize, hcount, rfl⟩ := h
    refine .inr ⟨_, hhead, List.replicate (n + 1) 0,
      pushes (List.replicate (n + 1) 0) ++ requested (.writeCommand addr size false) 0, ?_⟩
    rw [← List.append_assoc, ← pushes_append]
    refine .burst addr 0 hsize ?_
    rw [List.length_append, List.length_replicate, ← hcount, Nat.add_assoc]
  | sendWrite =>
    obtain ⟨addr, size, k, hhead, hsize, hlen, rfl⟩ := h
    refine .inr ⟨_, hhead, [], [.addrReq (NpiCommand.writeCommand addr size false).addrReq true], ?_⟩
    rw [List.append_nil, List.append_assoc]
    exact .burst addr k hsize hlen
  | processWriteSpecial =>
    obtain ⟨rfl, addr, k, hhead, rfl⟩ := h
    refine .inr ⟨_, hhead, [0],
      [.addrReq (NpiCommand.writeCommand addr .burst1 false).addrReq true] ++ pushes [0], ?_⟩
    rw [← List.append_assoc]
    exact .single addr k 0
  | processWriteSpecialData =>
    obtain ⟨rfl, addr, k, hhead, rfl⟩ := h
    exact .inr ⟨_, hhead, [0], _, .single addr k 0⟩

/-! ### Runs -/

/-- What is said of the commands and of what the controller sees. -/
structure Npi.Faithful (P : Params) (s : Npi) : Prop where
  /-- The commands are those of the requests; what is missing is of the last request. -/
  commands : ∃ later, s.commands ++ later = s.requests.flatMap BurstRequest.split ∧
    (s.wrapper.wordsRemaining = 0 → later = [])
  /-- While there is something to be commanded, a rule fires that leaves less, unless the queue is
  full or the words of the last read are missing. -/
  progress : 0 < s.wrapper.wordsRemaining → s.CommandRoom →
    (s.wrapper.handlingRead = true → s.wrapper.outstandingReqs = 0) →
      ∃ t, (s.handleRead P = some t ∨ s.handleWrite P = some t) ∧
        t.wrapper.wordsRemaining < s.wrapper.wordsRemaining
  /-- The commands that are done took the next words each, in the order that their kind has; so does
  the one that is under way. -/
  served : ∃ done ws wsNow l lNow, s.commands = done ++ s.master.commandQ ∧
    s.given = ws ++ wsNow ++ s.master.writeQ.map NpiWriteWord.data ∧ s.signals = l ++ lNow ∧
      Blocks done ws l ∧
        (wsNow = [] ∧ lNow = [] ∨ ∃ c, s.master.commandQ.head? = some c ∧ Begun c wsNow lNow)

theorem Npi.progress (hpos : 0 < s.wrapper.wordsRemaining) (hroom : s.CommandRoom)
    (hread : s.wrapper.handlingRead = true → s.wrapper.outstandingReqs = 0) :
    ∃ t, (s.handleRead P = some t ∨ s.handleWrite P = some t) ∧
      t.wrapper.wordsRemaining < s.wrapper.wordsRemaining := by
  have hwords := (burstFor s.wrapper.wordsRemaining s.wrapper.address).words_pos
  cases hkind : s.wrapper.handlingRead with
  | true =>
    have ht : s.handleRead P = some _ := if_pos ⟨hkind, hpos, hread hkind, hroom⟩
    exact ⟨_, .inl ht, Nat.sub_lt hpos hwords⟩
  | false =>
    have ht : s.handleWrite P = some _ := if_pos ⟨hkind, hpos, hroom⟩
    exact ⟨_, .inr ht, Nat.sub_lt hpos hwords⟩

theorem splitting_of_reachable {C : Npi → Rule → Prop} (hs : (npi P C).Reachable s) :
    s.Splitting P := by
  refine TransitionSystem.Reachable.invariant (P := fun s => s.Splitting P) ?_ ?_ hs
  · rintro s ⟨xferCount, rfl⟩
    refine ⟨?_, fun hpos => absurd hpos (lt_irrefl 0)⟩
    exact split_zero _ _
  · rintro s t h ⟨r, hallowed, -, hr⟩
    exact h.step hallowed (rule_step hr)

theorem served_of_reachable {C : Npi → Rule → Prop} (hs : (npi P C).Reachable s) : s.Served := by
  refine hs.invariant_of_reachable ?_ ?_
  · rintro s ⟨xferCount, rfl⟩
    exact served_start xferCount
  · rintro s t hs h ⟨r, -, -, hr⟩
    exact h.step (fun c hc => (splitting_of_reachable hs).rmw_eq hc) (rule_step hr)

/-- In every run the requests are cut into aligned bursts, and the controller sees each with its own
words. -/
theorem bursts_faithful (hs : (npi P fun _ _ => True).Reachable s) :
    s.Faithful P ∧ ∀ r ∈ s.requests, r.Partitioned r.split := by
  have hsplitting := splitting_of_reachable hs
  obtain ⟨done, ws, wsNow, l, lNow, h⟩ := served_of_reachable hs
  refine ⟨⟨⟨_, hsplitting.commands, fun hzero => ?_⟩, fun hpos => Npi.progress hpos, done, ws, wsNow,
    l, lNow, h.commands, h.given, h.signals, h.blocks, h.current.begun⟩,
    fun r _ => partitioned_split r⟩
  rw [hzero, split_zero]

/-- Three words are written from word 5 on: one, and then two. -/
theorem bursts_faithful_threeWords : ∃ s : Npi,
    s.commands = [.writeCommand 40 .burst1 false, .writeCommand 48 .burst2 false] ∧
      s.signals = [.addrReq ⟨40, false, 0, true⟩ true, .wrFifoPush 1 0xff, .wrFifoPush 2 0xff,
        .wrFifoPush 3 0xff, .addrReq ⟨48, false, 1, true⟩ true] ∧
        (s.Faithful sampleParams ∧ ∀ r ∈ s.requests, r.Partitioned r.split) := by
  have hran : (ran sampleParams (fun _ _ => True) [.initDoneSet, .burstReq (.writeReq ⟨5, 3⟩),
      .handleWrite, .handleWrite, .writeData 1, .writeData 2, .writeData 3,
      .processCommandFifo false, .sendWriteCmdSpecial true, .processWriteFifoSpecial false,
      .processCommandFifo false, .processWriteFifo false, .processWriteFifo false,
      .sendWriteCmd true]).map (fun s => (s.commands, s.signals)) =
        some ([.writeCommand 40 .burst1 false, .writeCommand 48 .burst2 false],
          [.addrReq ⟨40, false, 0, true⟩ true, .wrFifoPush 1 0xff, .wrFifoPush 2 0xff,
            .wrFifoPush 3 0xff, .addrReq ⟨48, false, 1, true⟩ true]) := by
    decide
  obtain ⟨s, hs, hresult⟩ := Option.map_eq_some_iff.mp hran
  obtain ⟨hcommands, hsignals⟩ := Prod.mk.inj hresult
  exact ⟨s, hcommands, hsignals, bursts_faithful (ran_reachable _ hs)⟩

end SdramXupv2

end LeapPlatforms
