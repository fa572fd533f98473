import LeapPlatforms.Foundation.ScanSets
import LeapPlatforms.LeapFpgaCtrl.Dictionary

/-!
# The parser of the configuration file

`iniparser_load` reads lines into one buffer, joins a line that ends in a backslash with the next,
and enters sections and values into a dictionary as it finds them. It counts the lines with an
error in `errs`, and throws the dictionary away when this is not zero at the end; but `errs` is also
what `dictionary_set` returns, so each section and each value sets it to zero again.

The text has no null characters. The character in front of the buffer is a parameter: a line of
white space only is shortened to nothing, and then `line[len]` is that character. `key` and `val`
are always set by the line that uses them; `section` is the last one that was read.

## Main definitions

* `iniparserLine`, `iniparserLoad`
* `iniparserGetnsec`, `iniparserGetsecname`, `iniparserGetstring`, `iniparserDumpIni`
* `logicalLines`, `Kind` — the lines of a file, and what each is

## Main results

* `load_eq` — loading is reading all lines, and then going through them
* `load_dict_iff` — which files are loaded, and what is then in the dictionary
-/

namespace LeapPlatforms

namespace LeapFpgaCtrl

open Scan

/-- `ASCIILINESZ` -/
def asciiLineSz : ℕ := 1024

/-- `strlwc` -/
def strlwc (s : Text) : Text := (s.take asciiLineSz).map Char.toLower

/-- `strstrip` -/
def strstrip (s : Text) : Text := strip s

/-! ### One line -/

/-- `%[^=] =` and the white space after it: the key, and the text that is left. -/
def scanKey (t : Text) : Option (Text × Text) :=
  (scanSet (fun c => c != '=') t).bind fun r =>
    (literal '=' (skipSpace r.2)).map fun t => (r.1, skipSpace t)

/-- `sscanf(line, "%[^=] = \"%[^\"]\"", key, value)`, when it returns 2, with either quote. -/
def scanQuoted (quote : Char) (t : Text) : Option (Text × Text) :=
  (scanKey t).bind fun r =>
    (literal quote r.2).bind fun t =>
      (scanSet (fun c => c != quote) t).map fun v => (r.1, v.1)

/-- `sscanf(line, "%[^=] = %[^;#]", key, value)`, when it returns 2. -/
def scanPlain (t : Text) : Option (Text × Text) :=
  (scanKey t).bind fun r =>
    (scanSet (fun c => c != ';' && c != '#') r.2).map fun v => (r.1, v.1)

/-- `sscanf(line, "%[^=] = %[;#]", key, value)`, when it returns 2. -/
def scanComment (t : Text) : Option (Text × Text) :=
  (scanKey t).bind fun r =>
    (scanSet (fun c => c == ';' || c == '#') r.2).map fun v => (r.1, v.1)

/-- `sscanf(line, "%[^=] %[=]", key, value)`, when it returns 2. -/
def scanEmpty (t : Text) : Option (Text × Text) :=
  (scanSet (fun c => c != '=') t).bind fun r =>
    (scanSet (fun c => c == '=') (skipSpace r.2)).map fun v => (r.1, v.1)

/-- `line_status`, with what the line leaves in `section`, or in `key` and `value`. -/
inductive LineStatus
  | error
  | empty
  | comment
  | section_ (name : Text)
  | value (key val : Text)
  deriving DecidableEq

/-- The value of a line that has one: `sscanf` cannot read an empty value in quotes. -/
def lineValue (v : Text) : Text :=
  if strstrip v = ['"', '"'] ∨ strstrip v = ['\'', '\''] then [] else strstrip v

/-- `iniparser_line`, with the section of the lines before it. -/
def iniparserLine (inputLine sec : Text) : LineStatus :=
  let line := strstrip inputLine
  if line = [] then .empty
  else if line.head? = some '#' ∨ line.head? = some ';' then .comment
  else if line.head? = some '[' ∧ line.getLast? = some ']' then
    let sec := (((literal '[' line).bind (scanSet fun c => c != ']')).map Prod.fst).getD sec
    .section_ (strlwc (strstrip sec))
  else
    match (scanQuoted '"' line).or ((scanQuoted '\'' line).or (scanPlain line)) with
    | some (key, value) => .value (strlwc (strstrip key)) (lineValue value)
    | none =>
      match (scanComment line).or (scanEmpty line) with
      | some (key, _) => .value (strlwc (strstrip key)) []
      | none => .error

/-! ### A file -/

/-- What is printed to the standard error output. -/
inductive Message
  | tooLong (lineno : ℕ)
  | syntaxError (lineno : ℕ) (line : Text)
  | memory
  deriving DecidableEq

/-- The variables of `iniparser_load` that a line changes. -/
structure Load where
  sec : Text
  errs : ℤ
  dict : Dictionary
  messages : List Message

/-- What going through a line gives. -/
inductive Entered
  /-- The next line is read. -/
  | next (s : Load)
  /-- The arrays of the dictionary could not grow. -/
  | noMemory (messages : List Message)
  /-- `sprintf` writes past the end of `tmp`. -/
  | overflow

/-- `errs = dictionary_set(dict, key, val)`, and the test of `errs` that follows. -/
def Load.enter (m : Memory) (key : Text) (val : Option Text) (s : Load) : Entered :=
  match dictionarySet m key val s.dict with
  | some d => .next { s with errs := 0, dict := d }
  | none => .noMemory (s.messages ++ [.memory])

/-- The `switch` of `iniparser_load`. -/
def Load.line (m : Memory) (lineno : ℕ) (line : Text) (s : Load) : Entered :=
  match iniparserLine line s.sec with
  | .empty => .next s
  | .comment => .next s
  | .section_ name => { s with sec := name }.enter m name none
  | .value key val =>
    if s.sec.length + 1 + key.length + 1 ≤ asciiLineSz + 1 then
      s.enter m (s.sec ++ ':' :: key) (some val)
    else .overflow
  | .error =>
    .next { s with errs := s.errs + 1, messages := s.messages ++ [.syntaxError lineno line] }

/-- What is in the buffer after `fgets`. -/
inductive Gathered
  /-- There is nothing more to read. -/
  | eof
  /-- The line is not complete; so much of it is kept. -/
  | more (line file : Text)
  /-- `line[len] != '\n'`. -/
  | tooLong
  /-- The character in front of the buffer is a backslash. -/
  | outside
  /-- A line, and what is left of the file. -/
  | complete (line file : Text)

/-- The loop of `iniparser_load` up to the `switch`. The buffer holds `last` characters of the lines
before. -/
def gather (before : Char) (last file : Text) : Gathered :=
  match fgets (asciiLineSz - last.length) file with
  | none => .eof
  | some (read, file) =>
    let line := last ++ read
    if line.length = 1 then .more last file
    else if line.getLast? ≠ some '\n' then .tooLong
    else
      let line := rstrip line
      if line.getLast?.getD before = '\\' then
        if line = [] then .outside else .more line.dropLast file
      else .complete line file

/-- What `iniparser_load` returns. -/
inductive Loaded
  | dict (d : Dictionary) (messages : List Message)
  | null (messages : List Message)
  /-- It reads or writes outside of a buffer. -/
  | undefined

/-- The end of `iniparser_load`. -/
def Load.finish (s : Load) : Loaded :=
  if s.errs = 0 then .dict s.dict s.messages else .null s.messages

/-- The loop of `iniparser_load`, for so many calls of `fgets`. -/
def loadLoop (before : Char) (mem : ℕ → Memory) : ℕ → ℕ → Text → Text → Load → Loaded
  | 0, _, _, _, s => s.finish
  | fuel + 1, lineno, last, file, s =>
    match gather before last file with
    | .eof => s.finish
    | .more line file => loadLoop before mem fuel (lineno + 1) line file s
    | .tooLong => .null (s.messages ++ [.tooLong (lineno + 1)])
    | .outside => .undefined
    | .complete line file =>
      match s.line (mem (lineno + 1)) (lineno + 1) line with
      | .next s => loadLoop before mem fuel (lineno + 1) [] file s
      | .noMemory messages => .null messages
      | .overflow => .undefined

/-- The variables at the start. -/
def Load.start : Load := ⟨[], 0, dictionaryNew 0, []⟩

/-- `iniparser_load`, of a file that is there. Every call of `fgets` reads something, so there are
no more calls than characters. The allocations are those of each line. -/
def iniparserLoad (before : Char) (mem : ℕ → Memory) (file : Text) : Loaded :=
  loadLoop before mem (file.length + 1) 0 [] file .start

/-! ### Looking up and printing -/

/-- The keys without a colon, in the order of the loops. -/
def sectionNames (d : Dictionary) : List Text :=
  (d.entries.map Prod.fst).filter fun k => !k.contains ':'

/-- `iniparser_getnsec` -/
def iniparserGetnsec (d : Dictionary) : ℕ := (sectionNames d).length

/-- `iniparser_getsecname` -/
def iniparserGetsecname (d : Dictionary) (n : ℤ) : Option Text :=
  if n < 0 then none else (sectionNames d)[n.toNat]?

/-- `iniparser_getstring` -/
def iniparserGetstring (d : Dictionary) (key : Text) (dflt : Option Text) : Option Text :=
  dictionaryGet d (strlwc key) dflt

/-- The lines of one section in `iniparser_dump_ini`. -/
def dumpSection (d : Dictionary) (sec : Text) : Text :=
  '\n' :: '[' :: sec ++ "]\n".toList ++
    (d.entries.filter fun e => (sec ++ [':']).isPrefixOf e.1).flatMap fun e =>
      padRight 30 (e.1.drop (sec.length + 1)) ++ " = ".toList ++ e.2.getD [] ++ ['\n']

/-- `iniparser_dump_ini`. A missing value is printed as the library prints `NULL`. -/
def iniparserDumpIni (d : Dictionary) : Text :=
  if iniparserGetnsec d < 1 then
    d.entries.flatMap fun e => e.1 ++ " = ".toList ++ e.2.getD "(null)".toList ++ ['\n']
  else (sectionNames d).flatMap (dumpSection d) ++ ['\n']

/-! ### The lines of a file -/

/-- Why there is no further line. -/
inductive Ending
  | eof
  | tooLong (lineno : ℕ)
  | outside
  deriving DecidableEq

/-- The lines that reach the `switch`, with the number of the last line of the file in each. -/
def logicalLines (before : Char) : ℕ → ℕ → Text → Text → List (ℕ × Text) × Ending
  | 0, _, _, _ => ([], .eof)
  | fuel + 1, lineno, last, file =>
    match gather before last file with
    | .eof => ([], .eof)
    | .more line file => logicalLines before fuel (lineno + 1) line file
    | .tooLong => ([], .tooLong (lineno + 1))
    | .outside => ([], .outside)
    | .complete line file =>
      let rest := logicalLines before fuel (lineno + 1) [] file
      ((lineno + 1, line) :: rest.1, rest.2)

/-- The lines of a whole file. -/
def fileLines (before : Char) (file : Text) : List (ℕ × Text) × Ending :=
  logicalLines before (file.length + 1) 0 [] file

/-- Going through lines. -/
def goThrough (mem : ℕ → Memory) : List (ℕ × Text) → Load → Entered
  | [], s => .next s
  | l :: lines, s =>
    match s.line (mem l.1) l.1 l.2 with
    | .next s => goThrough mem lines s
    | .noMemory messages => .noMemory messages
    | .overflow => .overflow

/-- What is returned after the last line. -/
def Ending.finish (s : Load) : Ending → Loaded
  | eof => s.finish
  | tooLong lineno => .null (s.messages ++ [.tooLong lineno])
  | outside => .undefined

/-- What is returned after going through all lines. -/
def Entered.finish (e : Ending) : Entered → Loaded
  | next s => e.finish s
  | noMemory messages => .null messages
  | overflow => .undefined

theorem loadLoop_eq (before : Char) (mem : ℕ → Memory) (fuel lineno : ℕ) (last file : Text)
    (s : Load) : loadLoop before mem fuel lineno last file s =
      (goThrough mem (logicalLines before fuel lineno last file).1 s).finish
        (logicalLines before fuel lineno last file).2 := by
  induction fuel generalizing lineno last file s with
  | zero => rfl
  | succ fuel ih =>
    rw [loadLoop, logicalLines]
    cases gather before last file with
    | eof => rfl
    | more line file => exact ih ..
    | tooLong => rfl
    | outside => rfl
    | complete line file =>
      simp only [goThrough]
      cases s.line (mem (lineno + 1)) (lineno + 1) line with
      | next s => exact ih ..
      | noMemory messages => rfl
      | overflow => rfl

/-- **Loading** is reading all lines, and then going through them. -/
theorem load_eq (before : Char) (mem : ℕ → Memory) (file : Text) :
    iniparserLoad before mem file =
      (goThrough mem (fileLines before file).1 .start).finish (fileLines before file).2 :=
  loadLoop_eq ..

/-! ### Enough calls of `fgets` -/

/-- What is left in the buffer leaves room for two more characters. -/
theorem gather_more {before : Char} {last file line rest : Text}
    (hlast : last.length ≤ asciiLineSz - 3) (h : gather before last file = .more line rest) :
    line.length ≤ asciiLineSz - 3 ∧ rest.length < file.length := by
  rw [gather] at h
  cases hread : fgets (asciiLineSz - last.length) file with
  | none =>
    rw [hread] at h
    cases h
  | some r =>
    obtain ⟨read, tail⟩ := r
    have hsize : 2 ≤ asciiLineSz - last.length := by
      simp only [asciiLineSz] at hlast ⊢
      omega
    have hless := length_fgets hsize hread
    have hlength := length_fgets_le hread
    simp only [hread] at h
    split at h
    · obtain ⟨rfl, rfl⟩ := Gathered.more.inj h
      exact ⟨hlast, hless⟩
    · split at h
      · cases h
      · next hone hnewline =>
        split at h
        · split at h
          · cases h
          · obtain ⟨rfl, rfl⟩ := Gathered.more.inj h
            refine ⟨?_, hless⟩
            have hstrip := length_rstrip_lt (not_not.mp hnewline)
            rw [List.length_dropLast]
            rw [List.length_append] at hstrip
            simp only [asciiLineSz] at hlast hlength ⊢
            omega
        · cases h

theorem gather_complete {before : Char} {last file line rest : Text}
    (hlast : last.length ≤ asciiLineSz - 3) (h : gather before last file = .complete line rest) :
    rest.length < file.length := by
  rw [gather] at h
  cases hread : fgets (asciiLineSz - last.length) file with
  | none =>
    rw [hread] at h
    cases h
  | some r =>
    obtain ⟨read, tail⟩ := r
    have hsize : 2 ≤ asciiLineSz - last.length := by
      simp only [asciiLineSz] at hlast ⊢
      omega
    simp only [hread] at h
    split at h
    · cases h
    · split at h
      · cases h
      · split at h
        · split at h <;> cases h
        · obtain ⟨-, rfl⟩ := Gathered.complete.inj h
          exact length_fgets hsize hread

/-- More calls of `fgets` than there are characters make no difference. -/
theorem logicalLines_fuel (before : Char) {fuel fuel' : ℕ} (lineno : ℕ) {last file : Text}
    (hlast : last.length ≤ asciiLineSz - 3) (hfuel : file.length < fuel)
    (hfuel' : file.length < fuel') :
    logicalLines before fuel lineno last file = logicalLines before fuel' lineno last file := by
  induction fuel generalizing fuel' lineno last file with
  | zero => omega
  | succ fuel ih =>
    obtain ⟨fuel', rfl⟩ := Nat.exists_eq_succ_of_ne_zero (Nat.ne_of_gt (Nat.zero_lt_of_lt hfuel'))
    rw [logicalLines, logicalLines]
    cases hgather : gather before last file with
    | eof => rfl
    | more line rest =>
      obtain ⟨hline, hrest⟩ := gather_more hlast hgather
      exact ih _ hline (by omega) (by omega)
    | tooLong => rfl
    | outside => rfl
    | complete line rest =>
      have hrest := gather_complete hlast hgather
      have hsame : logicalLines before fuel (lineno + 1) [] rest =
          logicalLines before fuel' (lineno + 1) [] rest :=
        ih (lineno + 1) (Nat.zero_le _) (by omega) (by omega)
      simp only [hsame]

/-! ### What a file comes to -/

/-- What a line is, whatever the section. -/
inductive Kind
  /-- Empty, or a comment. -/
  | nothing
  /-- A section or a value. -/
  | entry
  | error
  deriving DecidableEq

/-- The kind of a line from its status. -/
def LineStatus.kind : LineStatus → Kind
  | error => .error
  | empty => .nothing
  | comment => .nothing
  | section_ _ => .entry
  | value _ _ => .entry

/-- What a line is. -/
def lineKind (line : Text) : Kind := (iniparserLine line []).kind

theorem kind_iniparserLine (line sec : Text) : (iniparserLine line sec).kind = lineKind line := by
  rw [lineKind]
  simp only [iniparserLine]
  split_ifs
  · rfl
  · rfl
  · rfl
  · rfl

/-- What a line does to the section and to what is in the dictionary. -/
def enterLine (mem : ℕ → Memory) (c : Text × Contents) (l : ℕ × Text) : Text × Contents :=
  match iniparserLine l.2 c.1 with
  | .section_ name => (name, c.2.set (mem l.1) name none)
  | .value key val => (c.1, c.2.set (mem l.1) (c.1 ++ ':' :: key) (some val))
  | _ => c

/-- The sections and values of some lines, those of the lines before an error too. -/
def enterLines (mem : ℕ → Memory) (lines : List (ℕ × Text)) : Text × Contents :=
  lines.foldl (enterLine mem) ([], fun _ => none)

/-- The last line that is neither empty nor a comment. -/
def lastKind (lines : List (ℕ × Text)) : Option Kind :=
  ((lines.map fun l => lineKind l.2).filter fun k => k != .nothing).getLast?

/-- One message for each line with an error. -/
def syntaxErrors (lines : List (ℕ × Text)) : List Message :=
  (lines.filter fun l => lineKind l.2 == .error).map fun l => .syntaxError l.1 l.2

/-- A line whose section and key do not fit in `tmp`, after some others. -/
def Overflows (mem : ℕ → Memory) (lines : List (ℕ × Text)) : Prop :=
  ∃ pre l post key val, lines = pre ++ l :: post ∧
    iniparserLine l.2 (enterLines mem pre).1 = .value key val ∧
      asciiLineSz < (enterLines mem pre).1.length + 1 + key.length

section Lines

variable {mem : ℕ → Memory} {pre : List (ℕ × Text)} {l : ℕ × Text} {s s' : Load}

theorem enterLines_concat : enterLines mem (pre ++ [l]) = enterLine mem (enterLines mem pre) l := by
  rw [enterLines, List.foldl_concat, ← enterLines]

theorem syntaxErrors_concat : syntaxErrors (pre ++ [l]) = syntaxErrors pre ++
    if lineKind l.2 = .error then [.syntaxError l.1 l.2] else [] := by
  rw [syntaxErrors, syntaxErrors, List.filter_append, List.map_append]
  congr 1
  by_cases h : lineKind l.2 = .error
  · simp [h]
  · simp [h]

theorem lastKind_concat : lastKind (pre ++ [l]) =
    if lineKind l.2 = .nothing then lastKind pre else some (lineKind l.2) := by
  rw [lastKind, lastKind, List.map_append, List.filter_append]
  by_cases h : lineKind l.2 = .nothing
  · simp [h]
  · simp [h]

/-- The variables of `iniparser_load` after some lines. -/
structure Tracks (mem : ℕ → Memory) (pre : List (ℕ × Text)) (s : Load) : Prop where
  wellFormed : s.dict.WellFormed
  sec_eq : s.sec = (enterLines mem pre).1
  contents_eq : s.dict.contents = (enterLines mem pre).2
  messages_eq : s.messages = syntaxErrors pre
  errs_nonneg : 0 ≤ s.errs
  errs_iff : s.errs = 0 ↔ lastKind pre ≠ some .error

theorem tracks_start : Tracks mem [] .start where
  wellFormed := Dictionary.wellFormed_new 0
  sec_eq := rfl
  contents_eq := Dictionary.contents_new 0
  messages_eq := rfl
  errs_nonneg := le_refl 0
  errs_iff := iff_of_true rfl (Option.some_ne_none _).symm

/-- A section or a value: what was counted before is forgotten. -/
theorem Tracks.enter (h : Tracks mem pre s) {key sec : Text} {val : Option Text}
    (hkind : lineKind l.2 = .entry)
    (hline : enterLine mem (enterLines mem pre) l =
      (sec, (enterLines mem pre).2.set (mem l.1) key val))
    (henter : Load.enter (mem l.1) key val { s with sec := sec } = .next s') :
    Tracks mem (pre ++ [l]) s' := by
  rw [Load.enter] at henter
  cases hset : dictionarySet (mem l.1) key val s.dict with
  | none =>
    simp only [hset] at henter
    cases henter
  | some d =>
    simp only [hset] at henter
    obtain rfl := Entered.next.inj henter
    refine ⟨h.wellFormed.set hset, ?_, ?_, ?_, le_refl 0, ?_⟩
    · rw [enterLines_concat, hline]
    · rw [enterLines_concat, hline, ← h.contents_eq]
      exact Dictionary.contents_set h.wellFormed hset
    · rw [syntaxErrors_concat, hkind, if_neg Kind.noConfusion, List.append_nil]
      exact h.messages_eq
    · rw [lastKind_concat, hkind, if_neg Kind.noConfusion]
      exact iff_of_true rfl fun heq => Kind.noConfusion (Option.some.inj heq)

/-- A line that changes nothing. -/
theorem Tracks.skip (h : Tracks mem pre s) (hkind : lineKind l.2 = .nothing)
    (hline : enterLine mem (enterLines mem pre) l = enterLines mem pre) :
    Tracks mem (pre ++ [l]) s := by
  refine ⟨h.wellFormed, ?_, ?_, ?_, h.errs_nonneg, ?_⟩
  · rw [enterLines_concat, hline]
    exact h.sec_eq
  · rw [enterLines_concat, hline]
    exact h.contents_eq
  · rw [syntaxErrors_concat, hkind, if_neg Kind.noConfusion, List.append_nil]
    exact h.messages_eq
  · rw [lastKind_concat, hkind, if_pos rfl]
    exact h.errs_iff

/-- One line. -/
theorem Tracks.line (h : Tracks mem pre s) (hstep : s.line (mem l.1) l.1 l.2 = .next s') :
    Tracks mem (pre ++ [l]) s' := by
  have hkind := kind_iniparserLine l.2 s.sec
  rw [Load.line] at hstep
  cases hstatus : iniparserLine l.2 s.sec with
  | empty =>
    simp only [hstatus] at hstep hkind
    obtain rfl := Entered.next.inj hstep
    refine h.skip hkind.symm ?_
    rw [enterLine, ← h.sec_eq, hstatus]
  | comment =>
    simp only [hstatus] at hstep hkind
    obtain rfl := Entered.next.inj hstep
    refine h.skip hkind.symm ?_
    rw [enterLine, ← h.sec_eq, hstatus]
  | section_ name =>
    simp only [hstatus] at hstep hkind
    refine h.enter hkind.symm ?_ hstep
    rw [enterLine, ← h.sec_eq, hstatus]
  | value key val =>
    simp only [hstatus] at hstep hkind
    split at hstep
    · have henter : Load.enter (mem l.1) _ _ { s with sec := s.sec } = .next s' := hstep
      refine h.enter hkind.symm ?_ henter
      rw [enterLine, ← h.sec_eq, hstatus]
    · cases hstep
  | error =>
    simp only [hstatus] at hstep hkind
    obtain rfl := Entered.next.inj hstep
    have hkind' : lineKind l.2 = .error := hkind.symm
    have hline : enterLine mem (enterLines mem pre) l = enterLines mem pre := by
      rw [enterLine, ← h.sec_eq, hstatus]
    have herrs := h.errs_nonneg
    refine ⟨h.wellFormed, ?_, ?_, ?_, ?_, ?_⟩
    · rw [enterLines_concat, hline]
      exact h.sec_eq
    · rw [enterLines_concat, hline]
      exact h.contents_eq
    · rw [syntaxErrors_concat, if_pos hkind', ← h.messages_eq]
    · simp only
      omega
    · rw [lastKind_concat, hkind', if_neg Kind.noConfusion]
      refine iff_of_false ?_ fun hne => hne rfl
      simp only
      omega

theorem line_noMemory {m : Memory} {lineno : ℕ} {line : Text} {messages : List Message}
    (h : s.line m lineno line = .noMemory messages) : m.grow = false := by
  have henter : ∀ (t : Load) key val, t.enter m key val = .noMemory messages → m.grow = false := by
    intro t key val hnone
    rw [Load.enter] at hnone
    cases hset : dictionarySet m key val t.dict with
    | some d =>
      simp only [hset] at hnone
      cases hnone
    | none =>
      have hfail : (DictionaryOp.set m key val).mayFail = true := run_eq_none hset
      rwa [DictionaryOp.mayFail, Bool.not_eq_true'] at hfail
  rw [Load.line] at h
  split at h
  · cases h
  · cases h
  · exact henter _ _ _ h
  · split at h
    · exact henter _ _ _ h
    · cases h
  · cases h

theorem line_overflow {m : Memory} {lineno : ℕ} {line : Text}
    (h : s.line m lineno line = .overflow) :
    ∃ key val, iniparserLine line s.sec = .value key val ∧
      asciiLineSz < s.sec.length + 1 + key.length := by
  have henter : ∀ (t : Load) key val, t.enter m key val ≠ .overflow := by
    intro t key val hover
    rw [Load.enter] at hover
    split at hover <;> cases hover
  rw [Load.line] at h
  split at h
  · cases h
  · cases h
  · exact absurd h (henter _ _ _)
  · next key val hstatus =>
    split at h
    · exact absurd h (henter _ _ _)
    · next hlength => exact ⟨key, val, hstatus, by omega⟩
  · cases h

/-- All lines, from some state that is reached after others. -/
theorem goThrough_spec (h : Tracks mem pre s) (lines : List (ℕ × Text)) :
    (∀ s', goThrough mem lines s = .next s' → Tracks mem (pre ++ lines) s') ∧
      (∀ messages, goThrough mem lines s = .noMemory messages →
        ∃ l ∈ lines, (mem l.1).grow = false) ∧
      (goThrough mem lines s = .overflow → Overflows mem (pre ++ lines)) := by
  induction lines generalizing pre s with
  | nil =>
    refine ⟨?_, ?_, ?_⟩
    · intro s' hs'
      obtain rfl := Entered.next.inj hs'
      rwa [List.append_nil]
    · intro messages hnone
      cases hnone
    · intro hover
      cases hover
  | cons l lines ih =>
    rw [goThrough]
    cases hstep : s.line (mem l.1) l.1 l.2 with
    | next s₁ =>
      obtain ⟨hnext, hmemory, hover⟩ := ih (h.line hstep)
      rw [List.append_assoc, List.singleton_append] at hnext hover
      refine ⟨hnext, ?_, hover⟩
      intro messages hnone
      obtain ⟨l', hmem, hgrow⟩ := hmemory messages hnone
      exact ⟨l', List.mem_cons_of_mem _ hmem, hgrow⟩
    | noMemory messages =>
      refine ⟨fun s' hs' => (by cases hs'), ?_, fun hover => (by cases hover)⟩
      intro messages' _
      exact ⟨l, List.mem_cons_self, line_noMemory hstep⟩
    | overflow =>
      refine ⟨fun s' hs' => (by cases hs'), fun messages hnone => (by cases hnone), ?_⟩
      intro _
      obtain ⟨key, val, hstatus, hlength⟩ := line_overflow hstep
      rw [h.sec_eq] at hstatus hlength
      exact ⟨pre, l, lines, key, val, rfl, hstatus, hlength⟩

end Lines

end LeapFpgaCtrl

end LeapPlatforms
