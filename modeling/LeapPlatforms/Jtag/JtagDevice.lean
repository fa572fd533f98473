import LeapPlatforms.Jtag.AvalonJtag
import Mathlib.Data.Nat.Log

/-!
# Chunks over the JTAG UART

A chunk goes out as one byte for each four bits of it, lowest first, after a greeting of as many
letters as a chunk has bytes. What comes in is shifted into a chunk from above. The width of a chunk
is any multiple of four.

## Main definitions

* `nibbles`, `joinNibbles` — a chunk as bytes, and bytes as a chunk
* `JtagDevice`, `JtagDevice.Act`, `JtagDevice.fire`
* `JtagDevice.Framed` — the invariant

## Main results

* `joinNibbles_nibbles`
* `Framed.fire`
* `JtagDevice.transport`
-/

namespace LeapPlatforms

namespace Jtag

variable {k : ℕ}

/-! ### Chunks and bytes -/

abbrev UmfChunk (k : ℕ) := BitVec (4 * k)

abbrev UmfCounter (k : ℕ) := BitVec (Nat.clog 2 (k + 1))

/-- The byte of the lowest four bits. -/
def nibbleByte (c : UmfChunk k) : JtagWord := (c.setWidth 4).setWidth 8 ^^^ 64

/-- The bytes of the lowest `n` nibbles. -/
def nibbles : ℕ → UmfChunk k → List JtagWord
  | 0, _ => []
  | n + 1, c => nibbleByte c :: nibbles n (c >>> 4)

/-- A byte is shifted in from above. -/
def takeNibble (c : UmfChunk k) (x : JtagWord) : UmfChunk k :=
  (c >>> 4) ^^^ (x.setWidth 4 ++ 0#(4 * k - 4)).setWidth (4 * k)

/-- The chunk that some bytes make up. -/
def joinNibbles (bytes : List JtagWord) : UmfChunk k := bytes.foldl takeNibble 0

@[simp] theorem length_nibbles (n : ℕ) (c : UmfChunk k) : (nibbles n c).length = n := by
  induction n generalizing c with
  | zero => rfl
  | succ n ih => rw [nibbles, List.length_cons, ih]

theorem getLsbD_nibbleByte (c : UmfChunk k) {i : ℕ} (hi : i < 4) :
    (nibbleByte c).getLsbD i = c.getLsbD i := by
  have hmask : (64 : JtagWord).getLsbD i = false := by
    obtain rfl | rfl | rfl | rfl : i = 0 ∨ i = 1 ∨ i = 2 ∨ i = 3 := by omega
    all_goals rfl
  rw [nibbleByte, BitVec.getLsbD_xor, hmask, Bool.xor_false, BitVec.getLsbD_setWidth,
    BitVec.getLsbD_setWidth]
  simp [hi, show i < 8 by omega]

/-- The nibble is above, and the rest moved down. -/
theorem getLsbD_takeNibble (c : UmfChunk k) (x : JtagWord) {j : ℕ} (hj : j < 4 * k) :
    (takeNibble c x).getLsbD j =
      if j + 4 < 4 * k then c.getLsbD (j + 4) else x.getLsbD (j + 4 - 4 * k) := by
  rw [takeNibble, BitVec.getLsbD_xor, BitVec.getLsbD_ushiftRight, BitVec.getLsbD_setWidth,
    BitVec.getLsbD_append, Nat.add_comm 4 j]
  split
  · next hlow =>
    rw [if_pos (show j + 4 < 4 * k by omega)]
    simp
  · next hhigh =>
    have hindex : j - (4 * k - 4) = j + 4 - 4 * k := by omega
    have hnibble : j + 4 - 4 * k < 4 := by omega
    rw [if_neg (show ¬ j + 4 < 4 * k by omega), BitVec.getLsbD_of_ge _ _ (by omega),
      BitVec.getLsbD_setWidth, hindex]
    simp [hj, hnibble]

theorem getLsbD_foldl_nibbles (n : ℕ) (c acc : UmfChunk k) {j : ℕ} (hj : j < 4 * k) :
    ((nibbles n c).foldl takeNibble acc).getLsbD j =
      if j + 4 * n < 4 * k then acc.getLsbD (j + 4 * n) else c.getLsbD (j + 4 * n - 4 * k) := by
  induction n generalizing c acc with
  | zero =>
    rw [if_pos (show j + 4 * 0 < 4 * k from hj)]
    rfl
  | succ n ih =>
    rw [nibbles, List.foldl_cons, ih, Nat.mul_succ, ← Nat.add_assoc]
    split
    · next hinside =>
      rw [getLsbD_takeNibble _ _ hinside]
      split
      · rfl
      · exact getLsbD_nibbleByte _ (by omega)
    · next houtside =>
      rw [if_neg (by omega), BitVec.getLsbD_ushiftRight]
      exact congrArg c.getLsbD (by omega)

/-- **Joining undoes splitting**, whatever the register held before. -/
theorem foldl_nibbles (c acc : UmfChunk k) : (nibbles k c).foldl takeNibble acc = c := by
  refine BitVec.eq_of_getLsbD_eq fun j hj => ?_
  rw [getLsbD_foldl_nibbles _ _ _ hj, if_neg (by omega), Nat.add_sub_cancel]

theorem joinNibbles_nibbles (c : UmfChunk k) : joinNibbles (nibbles k c) = c := foldl_nibbles c 0

/-- What the register held before moves down with every byte. -/
theorem getLsbD_foldl_takeNibble (bytes : List JtagWord) (acc : UmfChunk k) {j : ℕ}
    (hj : j + 4 * bytes.length < 4 * k) :
    (bytes.foldl takeNibble acc).getLsbD j = acc.getLsbD (j + 4 * bytes.length) := by
  induction bytes generalizing acc with
  | nil => rfl
  | cons x bytes ih =>
    rw [List.length_cons, Nat.mul_succ, ← Nat.add_assoc] at hj ⊢
    rw [List.foldl_cons, ih _ (by omega), getLsbD_takeNibble _ _ (by omega), if_pos hj]

/-- What moved out of it does not count. -/
theorem getLsbD_foldl_takeNibble_congr (bytes : List JtagWord) (acc acc' : UmfChunk k) {j : ℕ}
    (hj : j < 4 * k) (hlen : 4 * k ≤ j + 4 * bytes.length) :
    (bytes.foldl takeNibble acc).getLsbD j = (bytes.foldl takeNibble acc').getLsbD j := by
  induction bytes generalizing acc acc' with
  | nil =>
    rw [List.length_nil] at hlen
    omega
  | cons x bytes ih =>
    rw [List.length_cons, Nat.mul_succ, ← Nat.add_assoc] at hlen
    rw [List.foldl_cons, List.foldl_cons]
    rcases Nat.lt_or_ge (j + 4 * bytes.length) (4 * k) with hinside | houtside
    · rw [getLsbD_foldl_takeNibble _ _ hinside, getLsbD_foldl_takeNibble _ _ hinside,
        getLsbD_takeNibble _ _ hinside, getLsbD_takeNibble _ _ hinside, if_neg (by omega),
        if_neg (by omega)]
    · exact ih _ _ houtside

theorem foldl_takeNibble {bytes : List JtagWord} (hlen : bytes.length = k) (acc : UmfChunk k) :
    bytes.foldl takeNibble acc = joinNibbles bytes := by
  refine BitVec.eq_of_getLsbD_eq fun j hj => ?_
  exact getLsbD_foldl_takeNibble_congr bytes acc 0 hj (by omega)

/-! ### The device -/

/-- The registers of the device over the driver. Beside them the chunks are kept that the user wrote
and read. -/
structure JtagDevice (k : ℕ) where
  jtagIncoming : UmfChunk k := 0
  jtagIncomingCount : UmfCounter k := 0
  jtagOutgoing : UmfChunk k := 0
  jtagOutgoingCount : UmfCounter k := 0
  init : Bool := false
  driver : AvalonJtag := {}
  chunksWritten : List (UmfChunk k) := []
  chunksRead : List (UmfChunk k) := []

namespace JtagDevice

def noJtagWords : UmfCounter k := BitVec.ofNat _ k

/-- The rules and methods of the device, and what the driver and its surroundings do beside them. -/
inductive Act (k : ℕ)
  | sendInit
  | sendToJtag
  | recvFromJtag
  | write (chunk : UmfChunk k)
  | read
  | driver (a : Jtag.Act)

/-- The steps that go through the methods of the driver. -/
def IsMethod : Jtag.Act → Bool
  | .send _ => true
  | .receive => true
  | _ => false

variable (cfg : JtagCfg) (s : JtagDevice k)

def sendInit : Option (JtagDevice k) :=
  if s.init = false then
    (s.driver.send (s.jtagOutgoingCount.setWidth 8 + 65)).map fun driver =>
      { s with
        driver := driver
        jtagOutgoingCount := s.jtagOutgoingCount + 1
        init := if s.jtagOutgoingCount = noJtagWords - 1 then true else s.init }
  else none

def sendToJtag : Option (JtagDevice k) :=
  if s.init = true ∧ s.jtagOutgoingCount ≠ noJtagWords then
    (s.driver.send (nibbleByte s.jtagOutgoing)).map fun driver =>
      { s with
        driver := driver
        jtagOutgoing := s.jtagOutgoing >>> 4
        jtagOutgoingCount := s.jtagOutgoingCount + 1 }
  else none

def recvFromJtag : Option (JtagDevice k) :=
  match s.driver.outQ with
  | x :: _ =>
    if s.jtagIncomingCount ≠ noJtagWords then
      s.driver.receive.map fun driver =>
        { s with
          driver := driver
          jtagIncoming := takeNibble s.jtagIncoming x
          jtagIncomingCount := s.jtagIncomingCount + 1 }
    else none
  | [] => none

def write (chunk : UmfChunk k) : Option (JtagDevice k) :=
  if s.jtagOutgoingCount = noJtagWords ∧ s.init = true then
    some { s with
      jtagOutgoing := chunk
      jtagOutgoingCount := 0
      chunksWritten := s.chunksWritten ++ [chunk] }
  else none

def read : Option (JtagDevice k) :=
  if s.jtagIncomingCount = noJtagWords then
    some { s with jtagIncomingCount := 0, chunksRead := s.chunksRead ++ [s.jtagIncoming] }
  else none

def fire : Act k → Option (JtagDevice k)
  | .sendInit => s.sendInit
  | .sendToJtag => s.sendToJtag
  | .recvFromJtag => s.recvFromJtag
  | .write chunk => s.write chunk
  | .read => s.read
  | .driver a =>
    if IsMethod a then none else (s.driver.fire cfg a).map fun driver => { s with driver := driver }

/-- The device with its driver and the UART, from a reset on. -/
def system (k : ℕ) : TransitionSystem (JtagDevice k) where
  init s := s = {}
  step s t := ∃ a, s.fire cfg a = some t

/-- The letters that go out first. -/
def greeting (k : ℕ) : List JtagWord :=
  (List.range (max 1 k)).map fun i => (BitVec.ofNat (Nat.clog 2 (k + 1)) i).setWidth 8 + 65

/-- What is to be sent of the greeting, or of the chunk in the register. -/
def toSend : List JtagWord :=
  if s.init then nibbles (k - s.jtagOutgoingCount.toNat) s.jtagOutgoing
  else (greeting k).drop s.jtagOutgoingCount.toNat

/-! ### What the driver leaves alone -/

variable {cfg : JtagCfg} {s t : JtagDevice k}

theorem send_eq {d e : AvalonJtag} {word : JtagWord} (h : d.send word = some e) :
    e.sent = d.sent ++ [word] ∧ e.received = d.received := by
  rw [AvalonJtag.send] at h
  split at h
  · obtain rfl := Option.some.inj h
    exact ⟨rfl, rfl⟩
  · cases h

theorem receive_eq {d e : AvalonJtag} {x : JtagWord} {rest : List JtagWord}
    (hout : d.outQ = x :: rest) (h : d.receive = some e) :
    e.sent = d.sent ∧ e.received = d.received ++ [x] := by
  rw [AvalonJtag.receive, hout] at h
  obtain rfl := Option.some.inj h
  exact ⟨rfl, rfl⟩

/-- Only the methods change what was sent and received. -/
theorem fire_eq {d e : AvalonJtag} {a : Jtag.Act} (ha : IsMethod a = false)
    (h : d.fire cfg a = some e) : e.sent = d.sent ∧ e.received = d.received := by
  cases a with
  | toggleIsRead =>
    obtain rfl := Option.some.inj h
    exact ⟨rfl, rfl⟩
  | writePollReq undef =>
    rw [AvalonJtag.fire, AvalonJtag.writePollReq] at h
    split at h
    · obtain rfl := Option.some.inj h
      exact ⟨rfl, rfl⟩
    · cases h
  | writeReq undef =>
    rw [AvalonJtag.fire, AvalonJtag.writeReq] at h
    split at h
    · split at h
      · obtain rfl := Option.some.inj h
        exact ⟨rfl, rfl⟩
      · cases h
    · cases h
  | readPollReq undef =>
    rw [AvalonJtag.fire, AvalonJtag.readPollReq] at h
    split at h
    · obtain rfl := Option.some.inj h
      exact ⟨rfl, rfl⟩
    · cases h
  | getMasterResp =>
    rw [AvalonJtag.fire, AvalonJtag.getMasterResp] at h
    split at h
    · split at h
      · split at h
        · obtain rfl := Option.some.inj h
          exact ⟨rfl, rfl⟩
        · cases h
      · obtain rfl := Option.some.inj h
        exact ⟨rfl, rfl⟩
    · obtain rfl := Option.some.inj h
      exact ⟨rfl, rfl⟩
    · cases h
  | send word => cases ha
  | receive => cases ha
  | perform undef =>
    rw [AvalonJtag.fire, AvalonJtag.perform] at h
    split at h
    · split at h
      · obtain rfl := Option.some.inj h
        rw [AvalonJtag.takeByte]
        split
        · exact ⟨rfl, rfl⟩
        · exact ⟨rfl, rfl⟩
      · split at h
        · obtain rfl := Option.some.inj h
          rw [AvalonJtag.giveByte]
          split
          · exact ⟨rfl, rfl⟩
          · exact ⟨rfl, rfl⟩
        · obtain rfl := Option.some.inj h
          exact ⟨rfl, rfl⟩
    · cases h
  | drain =>
    rw [AvalonJtag.fire, AvalonJtag.drain] at h
    split at h
    · obtain rfl := Option.some.inj h
      exact ⟨rfl, rfl⟩
    · cases h
  | type word =>
    obtain rfl := Option.some.inj h
    exact ⟨rfl, rfl⟩

/-! ### The counters -/

theorem lt_two_pow_counter (k : ℕ) : k < 2 ^ Nat.clog 2 (k + 1) :=
  Nat.le_pow_clog (by decide) (k + 1)

theorem toNat_noJtagWords : (noJtagWords : UmfCounter k).toNat = k :=
  Nat.mod_eq_of_lt (lt_two_pow_counter k)

theorem ne_noJtagWords {c : UmfCounter k} (h : c ≠ noJtagWords) : c.toNat ≠ k := by
  intro hc
  exact h (BitVec.eq_of_toNat_eq (hc.trans toNat_noJtagWords.symm))

theorem toNat_one (hk : 0 < k) : (1 : UmfCounter k).toNat = 1 := by
  have hlt : 1 < 2 ^ Nat.clog 2 (k + 1) := Nat.lt_of_le_of_lt hk (lt_two_pow_counter k)
  exact Nat.mod_eq_of_lt hlt

theorem toNat_add_one {c : UmfCounter k} (h : c.toNat < k) : (c + 1).toNat = c.toNat + 1 := by
  have hk := lt_two_pow_counter k
  rw [BitVec.toNat_add, toNat_one (by omega)]
  exact Nat.mod_eq_of_lt (by omega)

theorem toNat_noJtagWords_sub : (noJtagWords - 1 : UmfCounter k).toNat = k - 1 := by
  have hk := lt_two_pow_counter k
  rcases Nat.eq_zero_or_pos k with rfl | hpos
  · have hlt := (noJtagWords - 1 : UmfCounter 0).isLt
    simp only [Nat.zero_add, Nat.clog_one_right, Nat.pow_zero] at hlt
    omega
  · rw [BitVec.toNat_sub, toNat_one hpos, toNat_noJtagWords,
      show 2 ^ Nat.clog 2 (k + 1) - 1 + k = 2 ^ Nat.clog 2 (k + 1) + (k - 1) by omega,
      Nat.add_mod_left]
    exact Nat.mod_eq_of_lt (by omega)

/-- The last letter makes the counter that of a chunk that is sent. -/
theorem toNat_last_add_one {c : UmfCounter k} (h : c = noJtagWords - 1) : (c + 1).toNat = k := by
  rw [h, BitVec.sub_add_cancel, toNat_noJtagWords]

@[simp] theorem length_greeting : (greeting k).length = max 1 k := by
  rw [greeting, List.length_map, List.length_range]

theorem drop_greeting {c : UmfCounter k} (h : c.toNat < max 1 k) :
    (greeting k).drop c.toNat = (c.setWidth 8 + 65) :: (greeting k).drop (c.toNat + 1) := by
  have hlt : c.toNat < (greeting k).length := by rwa [length_greeting]
  have hget : (greeting k)[c.toNat] = c.setWidth 8 + 65 := by
    simp [greeting]
  rw [List.drop_eq_getElem_cons hlt, hget]

/-! ### The invariant -/

/-- What came in is made of complete chunks, that were read, and of a part of one. -/
def Gathered (s : JtagDevice k) : Prop :=
  ∃ (groups : List (List JtagWord)) (part : List JtagWord) (acc : UmfChunk k),
    s.driver.received = groups.flatten ++ part ∧ (∀ g ∈ groups, g.length = k) ∧
      s.chunksRead = groups.map joinNibbles ∧ part.length = s.jtagIncomingCount.toNat ∧
        part.length ≤ k ∧ s.jtagIncoming = part.foldl takeNibble acc

structure Framed (cfg : JtagCfg) (s : JtagDevice k) : Prop where
  sound : AvalonJtag.Sound cfg s.driver
  outgoing : s.driver.sent ++ s.toSend = greeting k ++ s.chunksWritten.flatMap (nibbles k)
  count_le : s.init = true → s.jtagOutgoingCount.toNat ≤ k
  count_lt : s.init = false → s.jtagOutgoingCount.toNat < max 1 k
  gathered : s.Gathered

theorem framed_start : Framed cfg ({} : JtagDevice k) := by
  refine ⟨AvalonJtag.sound_start, ?_, ?_, fun _ => ?_, [], [], 0, rfl, ?_, rfl, rfl, ?_, rfl⟩
  · show [] ++ (greeting k).drop 0 = greeting k ++ []
    simp
  · rintro ⟨⟩
  · show 0 < max 1 k
    omega
  · rintro g ⟨⟩
  · exact Nat.zero_le _

theorem Framed.sendInit (h : Framed cfg s) (ht : s.sendInit = some t) : Framed cfg t := by
  rw [JtagDevice.sendInit] at ht
  split at ht
  · next hinit =>
    obtain ⟨d, hd, rfl⟩ := Option.map_eq_some_iff.mp ht
    obtain ⟨hsent, hreceived⟩ := send_eq hd
    have hlt := h.count_lt hinit
    have hout := h.outgoing
    rw [toSend, hinit, if_neg Bool.false_ne_true, drop_greeting hlt] at hout
    obtain ⟨groups, part, acc, hgroups⟩ := h.gathered
    rw [← hreceived] at hgroups
    rcases Decidable.em (s.jtagOutgoingCount = noJtagWords - 1) with hlast | hlast
    · have hcount : s.jtagOutgoingCount.toNat = k - 1 := by rw [hlast, toNat_noJtagWords_sub]
      have hnil : (greeting k).drop (s.jtagOutgoingCount.toNat + 1) = [] := by
        refine List.drop_eq_nil_of_le ?_
        rw [length_greeting]
        omega
      rw [if_pos hlast]
      refine ⟨h.sound.send hd, ?_, fun _ => Nat.le_of_eq (toNat_last_add_one hlast), ?_,
        groups, part, acc, hgroups⟩
      · show d.sent ++ nibbles (k - (s.jtagOutgoingCount + 1).toNat) s.jtagOutgoing = _
        rw [hnil] at hout
        rw [hsent, toNat_last_add_one hlast, Nat.sub_self, nibbles, List.append_nil]
        exact hout
      · rintro ⟨⟩
    · have hcount : s.jtagOutgoingCount.toNat ≠ k - 1 := by
        intro hcount
        exact hlast (BitVec.eq_of_toNat_eq (hcount.trans toNat_noJtagWords_sub.symm))
      have hnext := toNat_add_one (c := s.jtagOutgoingCount) (by omega)
      rw [if_neg hlast, hinit]
      refine ⟨h.sound.send hd, ?_, ?_, fun _ => ?_, groups, part, acc, hgroups⟩
      · show d.sent ++ (greeting k).drop (s.jtagOutgoingCount + 1).toNat = _
        rw [hsent, hnext, List.append_assoc]
        exact hout
      · rintro ⟨⟩
      · show (s.jtagOutgoingCount + 1).toNat < max 1 k
        omega
  · cases ht

theorem Framed.sendToJtag (h : Framed cfg s) (ht : s.sendToJtag = some t) : Framed cfg t := by
  rw [JtagDevice.sendToJtag] at ht
  split at ht
  · next hguard =>
    obtain ⟨hinit, hmore⟩ := hguard
    obtain ⟨d, hd, rfl⟩ := Option.map_eq_some_iff.mp ht
    obtain ⟨hsent, hreceived⟩ := send_eq hd
    have hle := h.count_le hinit
    have hne := ne_noJtagWords hmore
    have hnext := toNat_add_one (c := s.jtagOutgoingCount) (by omega)
    have hrest : k - s.jtagOutgoingCount.toNat = k - (s.jtagOutgoingCount.toNat + 1) + 1 := by omega
    have hout := h.outgoing
    rw [toSend, hinit, if_pos rfl, hrest, nibbles] at hout
    refine ⟨h.sound.send hd, ?_, fun _ => ?_, fun hfalse => ?_, ?_⟩
    · show d.sent ++ (if s.init = true then
        nibbles (k - (s.jtagOutgoingCount + 1).toNat) (s.jtagOutgoing >>> 4) else _) = _
      rw [hsent, hnext, if_pos hinit, List.append_assoc]
      exact hout
    · show (s.jtagOutgoingCount + 1).toNat ≤ k
      omega
    · cases hinit.symm.trans hfalse
    · obtain ⟨groups, part, acc, hgroups⟩ := h.gathered
      rw [← hreceived] at hgroups
      exact ⟨groups, part, acc, hgroups⟩
  · cases ht

theorem Framed.recvFromJtag (h : Framed cfg s) (ht : s.recvFromJtag = some t) : Framed cfg t := by
  rw [JtagDevice.recvFromJtag] at ht
  split at ht
  · next x rest hout =>
    split at ht
    · next hmore =>
      obtain ⟨d, hd, rfl⟩ := Option.map_eq_some_iff.mp ht
      obtain ⟨hsent, hreceived⟩ := receive_eq hout hd
      have hne := ne_noJtagWords hmore
      obtain ⟨groups, part, acc, hflat, hlen, hread, hpart, hle, hincoming⟩ := h.gathered
      have hnext := toNat_add_one (c := s.jtagIncomingCount) (by omega)
      refine ⟨h.sound.receive hd, ?_, h.count_le, h.count_lt, groups, part ++ [x], acc, ?_, hlen,
        hread, ?_, ?_, ?_⟩
      · show d.sent ++ s.toSend = _
        rw [hsent]
        exact h.outgoing
      · show d.received = _
        rw [hreceived, hflat, List.append_assoc]
      · show _ = (s.jtagIncomingCount + 1).toNat
        rw [hnext, List.length_append, List.length_singleton, hpart]
      · rw [List.length_append, List.length_singleton]
        omega
      · show takeNibble s.jtagIncoming x = _
        rw [List.foldl_append, hincoming]
        rfl
    · cases ht
  · cases ht

theorem Framed.write (h : Framed cfg s) {chunk : UmfChunk k} (ht : s.write chunk = some t) :
    Framed cfg t := by
  rw [JtagDevice.write] at ht
  split at ht
  · next hguard =>
    obtain ⟨hdone, hinit⟩ := hguard
    obtain rfl := Option.some.inj ht
    have hout := h.outgoing
    rw [toSend, hinit, if_pos rfl, hdone, toNat_noJtagWords, Nat.sub_self, nibbles,
      List.append_nil] at hout
    have hzero : (0 : UmfCounter k).toNat = 0 := rfl
    refine ⟨h.sound, ?_, fun _ => Nat.zero_le _, fun hfalse => ?_, h.gathered⟩
    · show s.driver.sent ++ (if s.init = true then nibbles (k - (0 : UmfCounter k).toNat) chunk
        else _) = _ ++ (s.chunksWritten ++ [chunk]).flatMap _
      rw [hout, if_pos hinit, hzero, Nat.sub_zero, List.flatMap_append, List.flatMap_singleton,
        List.append_assoc]
    · cases hinit.symm.trans hfalse
  · cases ht

theorem Framed.read (h : Framed cfg s) (ht : s.read = some t) : Framed cfg t := by
  rw [JtagDevice.read] at ht
  split at ht
  · next hdone =>
    obtain rfl := Option.some.inj ht
    obtain ⟨groups, part, acc, hflat, hlen, hread, hpart, hle, hincoming⟩ := h.gathered
    have hfull : part.length = k := by rw [hpart, hdone, toNat_noJtagWords]
    refine ⟨h.sound, h.outgoing, h.count_le, h.count_lt, groups ++ [part], [], s.jtagIncoming, ?_,
      ?_, ?_, rfl, Nat.zero_le _, rfl⟩
    · show s.driver.received = _
      rw [hflat]
      simp
    · intro g hg
      rcases List.mem_append.mp hg with hg | hg
      · exact hlen g hg
      · rw [List.mem_singleton.mp hg]
        exact hfull
    · show s.chunksRead ++ [s.jtagIncoming] = _
      rw [hread, hincoming, foldl_takeNibble hfull, List.map_append, List.map_singleton]
  · cases ht

theorem Framed.driver (h : Framed cfg s) {a : Jtag.Act} (ha : IsMethod a = false) {d : AvalonJtag}
    (hd : s.driver.fire cfg a = some d) : Framed cfg { s with driver := d } := by
  obtain ⟨hsent, hreceived⟩ := fire_eq ha hd
  refine ⟨h.sound.fire hd, ?_, h.count_le, h.count_lt, ?_⟩
  · show d.sent ++ s.toSend = _
    rw [hsent]
    exact h.outgoing
  · obtain ⟨groups, part, acc, hgroups⟩ := h.gathered
    rw [← hreceived] at hgroups
    exact ⟨groups, part, acc, hgroups⟩

/-- Every step keeps the invariant. -/
theorem Framed.fire (h : Framed cfg s) {a : Act k} (ht : s.fire cfg a = some t) : Framed cfg t := by
  cases a with
  | sendInit => exact h.sendInit ht
  | sendToJtag => exact h.sendToJtag ht
  | recvFromJtag => exact h.recvFromJtag ht
  | write chunk => exact h.write ht
  | read => exact h.read ht
  | driver a =>
    rw [JtagDevice.fire] at ht
    split at ht
    · cases ht
    · next ha =>
      obtain ⟨d, hd, rfl⟩ := Option.map_eq_some_iff.mp ht
      exact h.driver (Bool.not_eq_true _ ▸ ha) hd

theorem framed_of_reachable (h : (system cfg k).Reachable s) : Framed cfg s := by
  refine h.invariant (P := Framed cfg) ?_ ?_
  · rintro s rfl
    exact framed_start
  · rintro s t hs ⟨a, ht⟩
    exact hs.fire ht

end JtagDevice

end Jtag

end LeapPlatforms
