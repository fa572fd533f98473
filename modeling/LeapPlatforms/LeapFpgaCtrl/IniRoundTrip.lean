import LeapPlatforms.LeapFpgaCtrl.IniParser

/-!
# Saving and loading a configuration

`iniparser_dump_ini` prints a dictionary as a file for `iniparser_load`. The text does not protect
anything: a value in which a comment starts, or a key with an equals sign, is read as something
else. `Dumpable` names what has to hold of the strings; every key with a colon then has its section,
without which it would not be printed at all.

## Main definitions

* `SectionName`, `KeyName`, `ValueText`, `Dumpable` — what can be saved
* `ProperLine`, `fileOf` — lines that are read one by one
* `physicalLines` — what is printed, line by line

## Main results

* `logicalLines_fileOf` — the lines of a file are read back
* `iniparserLine_section`, `iniparserLine_value` — what the printed lines are
* `load_dumpIni` — loading what was saved
-/

namespace LeapPlatforms

namespace LeapFpgaCtrl

open Scan

/-! ### Reading lines back -/

/-- A line that is read at once, and is not joined with the next. -/
structure ProperLine (l : Text) : Prop where
  newline : '\n' ∉ l
  length_le : l.length + 2 ≤ asciiLineSz
  ne_nil : rstrip l ≠ []
  backslash : (rstrip l).getLast? ≠ some '\\'

/-- The file of some lines. -/
def fileOf (ls : List Text) : Text := ls.flatMap fun l => l ++ ['\n']

theorem fileOf_cons (l : Text) (ls : List Text) : fileOf (l :: ls) = l ++ '\n' :: fileOf ls := by
  rw [fileOf, List.flatMap_cons, List.append_assoc, List.singleton_append, ← fileOf]

theorem gather_newline (before : Char) (file : Text) :
    gather before [] ('\n' :: file) = .more [] file := by
  have hread : fgets (asciiLineSz - ([] : Text).length) ('\n' :: file) = some (['\n'], file) :=
    fgets_line (l := []) (List.not_mem_nil) (by decide)
  rw [gather, hread]
  rfl

theorem gather_proper {l : Text} (h : ProperLine l) (before : Char) (file : Text) :
    gather before [] (l ++ '\n' :: file) = .complete (rstrip l) file := by
  have hread : fgets (asciiLineSz - ([] : Text).length) (l ++ '\n' :: file) =
      some (l ++ ['\n'], file) := fgets_line h.newline h.length_le
  have hne : l ≠ [] := by
    intro hnil
    exact h.ne_nil (by rw [hnil, rstrip_nil])
  have hlength : (l ++ ['\n']).length ≠ 1 := by
    have hpos := List.length_pos_iff.mpr hne
    rw [List.length_append, List.length_singleton]
    omega
  have hlast : (l ++ ['\n']).getLast? = some '\n' := List.getLast?_concat
  have hstrip : rstrip (l ++ ['\n']) = rstrip l := by
    refine rstrip_append_blanks ?_
    intro c hc
    rw [List.mem_singleton.mp hc]
    rfl
  have hback : (rstrip l).getLast?.getD before ≠ '\\' := by
    obtain ⟨c, hc⟩ := Option.ne_none_iff_exists'.mp (mt List.getLast?_eq_none_iff.mp h.ne_nil)
    rw [hc, Option.getD_some]
    intro heq
    exact h.backslash (by rw [hc, heq])
  rw [gather, hread]
  simp only [List.nil_append, if_neg hlength, hlast, ne_eq, not_true_eq_false, if_false, hstrip,
    if_neg hback]

/-- **The lines of a file** are read back, without the empty ones. -/
theorem logicalLines_fileOf (before : Char) {ls : List Text} (hls : ∀ l ∈ ls, l = [] ∨ ProperLine l)
    {fuel : ℕ} (hfuel : (fileOf ls).length < fuel) (lineno : ℕ) :
    (logicalLines before fuel lineno [] (fileOf ls)).1.map Prod.snd =
        (ls.filter fun l => l != []).map rstrip ∧
      (logicalLines before fuel lineno [] (fileOf ls)).2 = .eof := by
  induction ls generalizing fuel lineno with
  | nil =>
    obtain ⟨fuel, rfl⟩ := Nat.exists_eq_succ_of_ne_zero (Nat.ne_of_gt (Nat.zero_lt_of_lt hfuel))
    exact ⟨rfl, rfl⟩
  | cons l ls ih =>
    obtain ⟨fuel, rfl⟩ := Nat.exists_eq_succ_of_ne_zero (Nat.ne_of_gt (Nat.zero_lt_of_lt hfuel))
    rw [fileOf_cons, List.length_append, List.length_cons] at hfuel
    have hrest := ih (fun l' hl' => hls l' (List.mem_cons_of_mem _ hl'))
      (show (fileOf ls).length < fuel by omega) (lineno + 1)
    rw [fileOf_cons, logicalLines]
    rcases hls l List.mem_cons_self with rfl | hproper
    · rw [List.nil_append, gather_newline, List.filter_cons_of_neg (by decide)]
      exact hrest
    · have hne : (l != []) = true := by
        rw [bne_iff_ne]
        intro hnil
        exact hproper.ne_nil (by rw [hnil, rstrip_nil])
      rw [gather_proper hproper, List.filter_cons_of_pos (p := fun l => l != []) hne]
      exact ⟨congrArg (List.cons _) hrest.1, hrest.2⟩

/-! ### What can be saved -/

/-- The name of a section that is read back. -/
structure SectionName (s : Text) : Prop where
  ne_nil : s ≠ []
  strip_eq : strip s = s
  lower : s.map Char.toLower = s
  bracket : ']' ∉ s
  newline : '\n' ∉ s
  length_le : s.length + 4 ≤ asciiLineSz

/-- The name of a key that is read back. -/
structure KeyName (k : Text) : Prop where
  ne_nil : k ≠ []
  strip_eq : strip k = k
  lower : k.map Char.toLower = k
  equals : '=' ∉ k
  newline : '\n' ∉ k
  head : k.head? ≠ some '#' ∧ k.head? ≠ some ';' ∧ k.head? ≠ some '['

/-- A value that is read back. -/
structure ValueText (v : Text) : Prop where
  strip_eq : strip v = v
  comment : ';' ∉ v ∧ '#' ∉ v
  newline : '\n' ∉ v
  quote : v.head? ≠ some '"' ∧ v.head? ≠ some '\''
  backslash : v.getLast? ≠ some '\\'

/-- The line of a section. -/
def sectionLine (s : Text) : Text := '[' :: s ++ [']']

/-- The line of a key. -/
def valueLine (k v : Text) : Text := padRight 30 k ++ " = ".toList ++ v

theorem getLast?_sectionLine (s : Text) : (sectionLine s).getLast? = some ']' :=
  List.getLast?_concat

theorem strip_sectionLine (s : Text) : strip (sectionLine s) = sectionLine s := by
  refine strip_eq_self_iff.mpr ⟨?_, ?_⟩
  · intro c hc
    obtain rfl := Option.some.inj hc
    rfl
  · intro c hc
    rw [getLast?_sectionLine] at hc
    obtain rfl := Option.some.inj hc
    rfl

theorem rstrip_sectionLine (s : Text) : rstrip (sectionLine s) = sectionLine s := by
  refine rstrip_eq_self_iff.mpr ?_
  intro c hc
  rw [getLast?_sectionLine] at hc
  obtain rfl := Option.some.inj hc
  rfl

theorem strlwc_eq {s : Text} (hs : s.map Char.toLower = s) (hlength : s.length ≤ asciiLineSz) :
    strlwc s = s := by
  rw [strlwc, List.take_of_length_le hlength, hs]

/-- A section is read back. -/
theorem iniparserLine_section {s : Text} (h : SectionName s) (sec : Text) :
    iniparserLine (rstrip (sectionLine s)) sec = .section_ s := by
  have hscan : scanSet (fun c => c != ']') (s ++ [']']) = some (s, [']']) := by
    refine scanSet_append ?_ h.ne_nil ?_
    · intro c hc
      exact bne_iff_ne.mpr fun heq => h.bracket (heq ▸ hc)
    · intro c hc
      obtain rfl := Option.some.inj hc
      rfl
  have hlength := h.length_le
  have hlower : strlwc (strstrip s) = s := by
    rw [strstrip, h.strip_eq]
    exact strlwc_eq h.lower (by omega)
  have hread : (((literal '[' (sectionLine s)).bind (scanSet fun c => c != ']')).map
      Prod.fst).getD sec = s := by
    rw [sectionLine, List.cons_append, literal_cons, Option.bind_some, hscan]
    rfl
  have hhead : (sectionLine s).head? = some '[' := rfl
  simp only [iniparserLine, strstrip, rstrip_sectionLine, strip_sectionLine, hhead,
    getLast?_sectionLine]
  rw [if_neg (by simp [sectionLine]), if_neg (by decide), if_pos ⟨trivial, trivial⟩, hread,
    ← strstrip, hlower]

/-! ### The line of a key -/

section Value

variable {k v : Text}

/-- The line without blanks at its end. -/
theorem rstrip_valueLine (hv : strip v = v) :
    rstrip (valueLine k v) = padRight 30 k ++ if v = [] then [' ', '='] else " = ".toList ++ v := by
  have hspaces : " = ".toList = [' ', '='] ++ [' '] := by decide
  split
  · next hnil =>
    rw [valueLine, hnil, List.append_nil, hspaces, ← List.append_assoc]
    rw [rstrip_append_blanks]
    · refine rstrip_eq_self_iff.mpr ?_
      intro c hc
      rw [List.getLast?_append] at hc
      obtain rfl := Option.some.inj hc
      rfl
    · intro c hc
      rw [List.mem_singleton.mp hc]
      rfl
  · next hne =>
    rw [valueLine, List.append_assoc]
    refine rstrip_eq_self_iff.mpr ?_
    intro c hc
    obtain ⟨d, hd⟩ := Option.ne_none_iff_exists'.mp (mt List.getLast?_eq_none_iff.mp hne)
    rw [List.getLast?_append, List.getLast?_append, hd] at hc
    obtain rfl := Option.some.inj hc
    exact (strip_eq_self_iff.mp hv).2 _ hd

theorem head?_padRight (hk : k ≠ []) (t : Text) : (padRight 30 k ++ t).head? = k.head? := by
  cases k with
  | nil => exact absurd rfl hk
  | cons c k => rfl

/-- The key is read up to the equals sign. -/
theorem scanSet_valueLine (h : KeyName k) (t : Text) :
    scanSet (fun c => c != '=') (padRight 30 k ++ [' '] ++ '=' :: t) =
      some (padRight 30 k ++ [' '], '=' :: t) := by
  refine scanSet_append ?_ ?_ ?_
  · intro c hc
    rw [bne_iff_ne]
    rintro rfl
    rw [padRight, List.mem_append, List.mem_append, List.mem_singleton] at hc
    rcases hc with (hc | hc) | hc
    · exact h.equals hc
    · cases List.eq_of_mem_replicate hc
    · cases hc
  · exact List.append_ne_nil_of_right_ne_nil _ (List.cons_ne_nil _ _)
  · intro c hc
    obtain rfl := Option.some.inj hc
    rfl

theorem strip_padRight (hk : strip k = k) : strip (padRight 30 k ++ [' ']) = k := by
  rw [padRight, List.append_assoc]
  refine strip_append_blanks hk ?_
  intro c hc
  rw [List.mem_append, List.mem_singleton] at hc
  rcases hc with hc | rfl
  · exact isSpace_of_mem_replicate c hc
  · rfl

theorem skipSpace_of_strip (hv : strip v = v) : skipSpace v = v := by
  cases v with
  | nil => rfl
  | cons c v => exact skipSpace_cons ((strip_eq_self_iff.mp hv).1 c rfl) v

/-- What is printed after the equals sign. -/
def printed (v : Text) : Text := if v = [] then [] else ' ' :: v

theorem rstrip_valueLine' (hv : strip v = v) :
    rstrip (valueLine k v) = padRight 30 k ++ [' '] ++ '=' :: printed v := by
  rw [rstrip_valueLine hv, printed, List.append_assoc]
  split <;> rfl

theorem skipSpace_printed (hv : strip v = v) : skipSpace (printed v) = v := by
  rw [printed]
  split
  · next hnil => rw [hnil, skipSpace_nil]
  · rw [skipSpace_space, skipSpace_of_strip hv]

theorem scanKey_valueLine (hk : KeyName k) (hv : strip v = v) :
    scanKey (rstrip (valueLine k v)) = some (padRight 30 k ++ [' '], v) := by
  have hskip : skipSpace ('=' :: printed v) = '=' :: printed v := skipSpace_cons rfl _
  rw [rstrip_valueLine' hv, scanKey, scanSet_valueLine hk, Option.bind_some, hskip, literal_cons,
    Option.map_some, skipSpace_printed hv]

theorem scanQuoted_valueLine (hk : KeyName k) (hv : strip v = v) {quote : Char}
    (hquote : v.head? ≠ some quote) : scanQuoted quote (rstrip (valueLine k v)) = none := by
  rw [scanQuoted, scanKey_valueLine hk hv, Option.bind_some, literal_of_ne hquote, Option.bind_none]

theorem scanPlain_valueLine (hk : KeyName k) (hv : ValueText v) (hne : v ≠ []) :
    scanPlain (rstrip (valueLine k v)) = some (padRight 30 k ++ [' '], v) := by
  have hall : ∀ c ∈ v, (c != ';' && c != '#') = true := by
    intro c hc
    rw [Bool.and_eq_true, bne_iff_ne, bne_iff_ne]
    exact ⟨fun h => hv.comment.1 (h ▸ hc), fun h => hv.comment.2 (h ▸ hc)⟩
  rw [scanPlain, scanKey_valueLine hk hv.strip_eq, Option.bind_some, scanSet_all hall hne]
  rfl

theorem scanEmpty_valueLine (hk : KeyName k) :
    scanEmpty (rstrip (valueLine k [])) = some (padRight 30 k ++ [' '], ['=']) := by
  rw [rstrip_valueLine' rfl, scanEmpty, scanSet_valueLine hk]
  rfl

/-- A key and its value are read back. -/
theorem iniparserLine_value (hk : KeyName k) (hv : ValueText v)
    (hlength : k.length ≤ asciiLineSz) (sec : Text) :
    iniparserLine (rstrip (valueLine k v)) sec = .value k v := by
  have hhead : (rstrip (valueLine k v)).head? = k.head? := by
    rw [rstrip_valueLine' hv.strip_eq, List.append_assoc]
    exact head?_padRight hk.ne_nil _
  have hstrip : strstrip (rstrip (valueLine k v)) = rstrip (valueLine k v) := by
    refine strip_eq_self_iff.mpr ⟨?_, ?_⟩
    · rw [hhead]
      exact (strip_eq_self_iff.mp hk.strip_eq).1
    · exact rstrip_eq_self_iff.mp (List.rdropWhile_idempotent ..)
  have hne : rstrip (valueLine k v) ≠ [] := by
    intro hnil
    rw [hnil] at hhead
    exact hk.ne_nil (List.head?_eq_none_iff.mp hhead.symm)
  have hkey : strlwc (strstrip (padRight 30 k ++ [' '])) = k := by
    rw [strstrip, strip_padRight hk.strip_eq]
    exact strlwc_eq hk.lower hlength
  obtain ⟨hhash, hsemi, hbracket⟩ := hk.head
  simp only [iniparserLine, hstrip, hhead, if_neg hne, hhash, hsemi, hbracket, or_self, false_and,
    if_false, scanQuoted_valueLine hk hv.strip_eq hv.quote.1,
    scanQuoted_valueLine hk hv.strip_eq hv.quote.2, Option.none_or]
  by_cases hnil : v = []
  · subst hnil
    have hplain : scanPlain (rstrip (valueLine k [])) = none := by
      rw [scanPlain, scanKey_valueLine hk rfl]
      rfl
    have hcomment : scanComment (rstrip (valueLine k [])) = none := by
      rw [scanComment, scanKey_valueLine hk rfl]
      rfl
    simp only [hplain, hcomment, scanEmpty_valueLine hk, Option.none_or, hkey]
  · have hvalue : lineValue v = v := by
      have hquotes : ¬ (v = ['"', '"'] ∨ v = ['\'', '\'']) := by
        rintro (h | h)
        · exact hv.quote.1 (by rw [h, List.head?_cons])
        · exact hv.quote.2 (by rw [h, List.head?_cons])
      rw [lineValue, strstrip, hv.strip_eq, if_neg hquotes]
    simp only [scanPlain_valueLine hk hv hnil, hkey, hvalue]

end Value

/-! ### A dictionary that can be saved -/

/-- The strings of the dictionary are read back: there is a section, a section has no value, and a
key with a colon belongs to a section that is there and has a value. -/
structure Dumpable (d : Dictionary) : Prop where
  getnsec_pos : 0 < iniparserGetnsec d
  sections : ∀ k v, (k, v) ∈ d.entries → ':' ∉ k → SectionName k ∧ v = none
  values : ∀ k v, (k, v) ∈ d.entries → ':' ∈ k → ∃ s name val, k = s ++ ':' :: name ∧ ':' ∉ s ∧
    (s, none) ∈ d.entries ∧ KeyName name ∧ v = some val ∧ ValueText val ∧
      max 30 name.length + val.length + 5 ≤ asciiLineSz ∧ s.length + name.length + 1 ≤ asciiLineSz

/-- The keys of one section. -/
def sectionEntries (d : Dictionary) (s : Text) : List (Text × Option Text) :=
  d.entries.filter fun e => (s ++ [':']).isPrefixOf e.1

/-- The lines that are printed for one section. -/
def sectionLines (d : Dictionary) (s : Text) : List Text :=
  sectionLine s :: (sectionEntries d s).map fun e =>
    valueLine (e.1.drop (s.length + 1)) (e.2.getD [])

/-- All lines that are printed. -/
def physicalLines (d : Dictionary) : List Text :=
  (sectionNames d).flatMap (fun s => [] :: sectionLines d s) ++ [[]]

theorem dumpSection_eq (d : Dictionary) (s : Text) :
    dumpSection d s = fileOf ([] :: sectionLines d s) := by
  rw [dumpSection, sectionLines, fileOf_cons, fileOf_cons, fileOf, List.flatMap_map]
  simp [sectionLine, sectionEntries, valueLine]

theorem dumpIni_eq {d : Dictionary} (h : 0 < iniparserGetnsec d) :
    iniparserDumpIni d = fileOf (physicalLines d) := by
  have hsections : ∀ names : List Text, names.flatMap (dumpSection d) =
      fileOf (names.flatMap fun s => [] :: sectionLines d s) := by
    intro names
    induction names with
    | nil => rfl
    | cons s names ih =>
      rw [List.flatMap_cons, List.flatMap_cons, ih, dumpSection_eq, fileOf, fileOf, fileOf,
        ← List.flatMap_append]
  rw [iniparserDumpIni, if_neg (by omega), hsections, physicalLines]
  simp only [fileOf, List.flatMap_append]
  rfl

/-! ### The printed lines -/

section Saved

variable {d : Dictionary}

theorem properLine_section {s : Text} (h : SectionName s) : ProperLine (sectionLine s) where
  newline := by
    have hne : '\n' ≠ '[' ∧ '\n' ≠ ']' := by decide
    simpa [sectionLine, hne.1, hne.2] using h.newline
  length_le := by
    have hlength := h.length_le
    simp only [sectionLine, List.length_append, List.length_cons, List.length_nil]
    omega
  ne_nil := by
    rw [rstrip_sectionLine]
    exact List.cons_ne_nil _ _
  backslash := by
    rw [rstrip_sectionLine, getLast?_sectionLine]
    decide

theorem properLine_value {k v : Text} (hk : KeyName k) (hv : ValueText v)
    (hlength : max 30 k.length + v.length + 5 ≤ asciiLineSz) : ProperLine (valueLine k v) where
  newline := by
    have hequals : '\n' ∉ " = ".toList := by decide
    rw [valueLine, padRight, List.mem_append, List.mem_append, List.mem_append]
    rintro (((h | h) | h) | h)
    · exact hk.newline h
    · cases List.eq_of_mem_replicate h
    · exact hequals h
    · exact hv.newline h
  length_le := by
    have hequals : (" = ".toList).length = 3 := by decide
    rw [valueLine, List.length_append, List.length_append, length_padRight, hequals]
    omega
  ne_nil := by
    rw [rstrip_valueLine' hv.strip_eq]
    exact List.append_ne_nil_of_right_ne_nil _ (List.cons_ne_nil _ _)
  backslash := by
    rw [rstrip_valueLine' hv.strip_eq, List.getLast?_append, printed]
    split
    · exact fun heq => absurd (Option.some.inj heq) (by decide)
    · next hne =>
      obtain ⟨c, hc⟩ := Option.ne_none_iff_exists'.mp (mt List.getLast?_eq_none_iff.mp hne)
      have hback := hv.backslash
      rw [hc] at hback
      rw [List.getLast?_cons_cons, List.getLast?_cons, hc, Option.getD_some]
      exact hback

/-- The text before the first colon. -/
theorem colon_split {s s' t t' : Text} (hs : ':' ∉ s) (hs' : ':' ∉ s')
    (h : s ++ ':' :: t = s' ++ ':' :: t') : s = s' ∧ t = t' := by
  induction s generalizing s' with
  | nil =>
    cases s' with
    | nil => exact ⟨rfl, (List.cons.inj h).2⟩
    | cons c s' => exact absurd ((List.cons.inj h).1 ▸ List.mem_cons_self) hs'
  | cons c s ih =>
    cases s' with
    | nil => exact absurd ((List.cons.inj h).1 ▸ List.mem_cons_self) hs
    | cons c' s' =>
      obtain ⟨rfl, hrest⟩ := List.cons.inj h
      obtain ⟨rfl, rfl⟩ := ih (fun hc => hs (List.mem_cons_of_mem _ hc))
        (fun hc => hs' (List.mem_cons_of_mem _ hc)) hrest
      exact ⟨rfl, rfl⟩

theorem drop_key (s name : Text) : (s ++ ':' :: name).drop (s.length + 1) = name := by
  rw [← List.drop_drop, List.drop_left]
  rfl

/-- The entries of a section that is there, in their parts. -/
theorem mem_sectionEntries (h : Dumpable d) {s : Text} (hs : ':' ∉ s) {k : Text} {v : Option Text}
    (hmem : (k, v) ∈ sectionEntries d s) : ∃ name val, k = s ++ ':' :: name ∧ KeyName name ∧
      v = some val ∧ ValueText val ∧ max 30 name.length + val.length + 5 ≤ asciiLineSz ∧
        s.length + name.length + 1 ≤ asciiLineSz := by
  rw [sectionEntries, List.mem_filter, List.isPrefixOf_iff_prefix] at hmem
  obtain ⟨hentry, rest, hrest⟩ := hmem
  rw [List.append_assoc, List.singleton_append] at hrest
  change s ++ ':' :: rest = k at hrest
  have hcolon : ':' ∈ k := by
    rw [← hrest]
    exact List.mem_append_right _ List.mem_cons_self
  obtain ⟨s', name, val, hk, hs', -, hname, hv, hval, hlen, hlen'⟩ := h.values k v hentry hcolon
  obtain ⟨rfl, rfl⟩ := colon_split hs hs' (hrest.trans hk)
  exact ⟨rest, val, hk, hname, hv, hval, hlen, hlen'⟩

theorem mem_sectionNames {s : Text} :
    s ∈ sectionNames d ↔ (∃ v, (s, v) ∈ d.entries) ∧ ':' ∉ s := by
  rw [sectionNames, List.mem_filter, List.mem_map]
  constructor
  · rintro ⟨⟨⟨k, v⟩, hmem, rfl⟩, hcolon⟩
    exact ⟨⟨v, hmem⟩, by simpa using hcolon⟩
  · rintro ⟨⟨v, hmem⟩, hcolon⟩
    exact ⟨⟨(s, v), hmem, rfl⟩, by simpa using hcolon⟩

theorem properLine_physicalLines (h : Dumpable d) :
    ∀ l ∈ physicalLines d, l = [] ∨ ProperLine l := by
  intro l hl
  rw [physicalLines, List.mem_append, List.mem_flatMap, List.mem_singleton] at hl
  rcases hl with ⟨s, hs, hl⟩ | rfl
  · obtain ⟨⟨v, hentry⟩, hcolon⟩ := mem_sectionNames.mp hs
    rw [sectionLines, List.mem_cons, List.mem_cons, List.mem_map] at hl
    rcases hl with rfl | rfl | ⟨⟨k, v⟩, hmem, rfl⟩
    · exact .inl rfl
    · exact .inr (properLine_section (h.sections s v hentry hcolon).1)
    · obtain ⟨name, val, rfl, hname, rfl, hval, hlength, -⟩ := mem_sectionEntries h hcolon hmem
      right
      rw [drop_key, Option.getD_some]
      exact properLine_value hname hval hlength
  · exact .inl rfl

end Saved

/-! ### Going through the printed lines -/

section Run

variable {d : Dictionary} {mem : ℕ → Memory}

/-- Every allocation succeeds. -/
def plenty : Memory := ⟨true, true, true⟩

theorem set_plenty (key : Text) (val : Option Text) (c : Contents) :
    c.set plenty key val = Function.update c key (some val) := by
  rw [Contents.set, if_neg fun h => Bool.noConfusion h.2]
  cases val <;> rfl

/-- The section, and the strings in a dictionary that was loaded without errors so far. -/
structure ReadSoFar (s : Load) (sec : Text) (c : Contents) : Prop where
  wellFormed : s.dict.WellFormed
  errs_eq : s.errs = 0
  sec_eq : s.sec = sec
  contents_eq : s.dict.contents = c

variable {s : Load} {sec : Text} {c : Contents}

theorem ReadSoFar.enter (h : ReadSoFar s sec c) (sec' key : Text) (val : Option Text) :
    ∃ s', Load.enter plenty key val { s with sec := sec' } = .next s' ∧
      ReadSoFar s' sec' (Function.update c key (some val)) := by
  rw [Load.enter]
  cases hset : dictionarySet plenty key val s.dict with
  | none =>
    have hfail : (DictionaryOp.set plenty key val).mayFail = true := run_eq_none hset
    cases hfail
  | some d' =>
    refine ⟨_, rfl, h.wellFormed.set hset, rfl, rfl, ?_⟩
    rw [← set_plenty, ← h.contents_eq]
    exact Dictionary.contents_set h.wellFormed hset

theorem ReadSoFar.section_line (h : ReadSoFar s sec c) (lineno : ℕ) {line name : Text}
    (hline : iniparserLine line sec = .section_ name) :
    ∃ s', s.line plenty lineno line = .next s' ∧
      ReadSoFar s' name (Function.update c name (some none)) := by
  rw [Load.line, h.sec_eq, hline]
  exact h.enter name name none

theorem ReadSoFar.value_line (h : ReadSoFar s sec c) (lineno : ℕ) {line key val : Text}
    (hline : iniparserLine line sec = .value key val)
    (hlength : sec.length + key.length + 1 ≤ asciiLineSz) :
    ∃ s', s.line plenty lineno line = .next s' ∧
      ReadSoFar s' sec (Function.update c (sec ++ ':' :: key) (some (some val))) := by
  have hfits : sec.length + 1 + key.length + 1 ≤ asciiLineSz + 1 := by omega
  rw [Load.line, h.sec_eq, hline]
  simp only [if_pos hfits]
  obtain ⟨s', henter, hs'⟩ := h.enter sec (sec ++ ':' :: key) (some val)
  rw [← h.sec_eq] at henter ⊢
  exact ⟨s', henter, h.sec_eq ▸ hs'⟩

theorem goThrough_append (a b : List (ℕ × Text)) {s s' : Load} (h : goThrough mem a s = .next s') :
    goThrough mem (a ++ b) s = goThrough mem b s' := by
  induction a generalizing s with
  | nil =>
    obtain rfl := Entered.next.inj h
    rfl
  | cons l a ih =>
    rw [goThrough] at h
    rw [List.cons_append, goThrough]
    cases hline : s.line (mem l.1) l.1 l.2 with
    | next s₁ =>
      rw [hline] at h
      exact ih h
    | noMemory messages =>
      rw [hline] at h
      cases h
    | overflow =>
      rw [hline] at h
      cases h

/-- Keys are set in their order. -/
def setAll (c : Contents) (es : List (Text × Option Text)) : Contents :=
  es.foldl (fun c e => Function.update c e.1 (some e.2)) c

/-- The line that is printed for an entry. -/
def entryLine (s : Text) (e : Text × Option Text) : Text :=
  rstrip (valueLine (e.1.drop (s.length + 1)) (e.2.getD []))

/-- The entries of a section are entered. -/
theorem goThrough_entries (hd : Dumpable d) (hcolon : ':' ∉ sec) {es : List (Text × Option Text)}
    (hes : ∀ e ∈ es, e ∈ sectionEntries d sec) {lines : List (ℕ × Text)}
    (hlines : lines.map Prod.snd = es.map (entryLine sec)) (h : ReadSoFar s sec c) :
    ∃ s', goThrough (fun _ => plenty) lines s = .next s' ∧ ReadSoFar s' sec (setAll c es) := by
  induction es generalizing lines s c with
  | nil =>
    obtain rfl := List.map_eq_nil_iff.mp hlines
    exact ⟨s, rfl, h⟩
  | cons e es ih =>
    obtain ⟨l, lines, rfl, hl, hrest⟩ := List.map_eq_cons_iff.mp hlines
    obtain ⟨k, v⟩ := e
    obtain ⟨name, val, rfl, hname, rfl, hval, -, hlength⟩ :=
      mem_sectionEntries hd hcolon (hes _ List.mem_cons_self)
    have hline : iniparserLine l.2 sec = .value name val := by
      rw [hl, entryLine, drop_key, Option.getD_some]
      exact iniparserLine_value hname hval (by omega) sec
    obtain ⟨s₁, hstep, hholds⟩ := h.value_line l.1 hline hlength
    obtain ⟨s', hgo, hs'⟩ := ih (fun e he => hes e (List.mem_cons_of_mem _ he)) hrest hholds
    refine ⟨s', ?_, hs'⟩
    rw [goThrough]
    simp only [hstep]
    exact hgo

/-- What is entered for the sections. -/
def reloaded (d : Dictionary) (names : List Text) : List (Text × Option Text) :=
  names.flatMap fun s => (s, none) :: sectionEntries d s

/-- The sections are entered, each with its entries. -/
theorem goThrough_sections (hd : Dumpable d) {names : List Text}
    (hnames : ∀ s ∈ names, s ∈ sectionNames d) {lines : List (ℕ × Text)}
    (hlines : lines.map Prod.snd =
      names.flatMap fun s => rstrip (sectionLine s) :: (sectionEntries d s).map (entryLine s))
    (h : ReadSoFar s sec c) :
    ∃ s' sec', goThrough (fun _ => plenty) lines s = .next s' ∧
      ReadSoFar s' sec' (setAll c (reloaded d names)) := by
  induction names generalizing lines s sec c with
  | nil =>
    obtain rfl := List.map_eq_nil_iff.mp hlines
    exact ⟨s, sec, rfl, h⟩
  | cons name names ih =>
    obtain ⟨⟨v, hentry⟩, hcolon⟩ := mem_sectionNames.mp (hnames name List.mem_cons_self)
    rw [List.flatMap_cons, List.cons_append] at hlines
    obtain ⟨l, lines, rfl, hl, hrest⟩ := List.map_eq_cons_iff.mp hlines
    obtain ⟨block, others, rfl, hblock, hothers⟩ := List.map_eq_append_iff.mp hrest
    have hline : iniparserLine l.2 sec = .section_ name := by
      rw [hl]
      exact iniparserLine_section (hd.sections name v hentry hcolon).1 sec
    obtain ⟨s₁, hstep, h₁⟩ := h.section_line l.1 hline
    obtain ⟨s₂, hgo, h₂⟩ := goThrough_entries hd hcolon (fun e he => he) hblock h₁
    obtain ⟨s₃, sec', hgo', h₃⟩ :=
      ih (fun s hs => hnames s (List.mem_cons_of_mem _ hs)) hothers h₂
    refine ⟨s₃, sec', ?_, ?_⟩
    · rw [goThrough]
      simp only [hstep]
      rw [goThrough_append _ _ hgo, hgo']
    · rw [reloaded, List.flatMap_cons, setAll, List.cons_append, List.foldl_cons, List.foldl_append]
      exact h₃

/-- Setting keys to the values of `f` gives `f` at these keys. -/
theorem setAll_apply {f c : Contents} {es : List (Text × Option Text)}
    (hes : ∀ e ∈ es, f e.1 = some e.2) (k : Text) :
    setAll c es k = if k ∈ es.map Prod.fst then f k else c k := by
  induction es generalizing c with
  | nil => rfl
  | cons e es ih =>
    rw [setAll, List.foldl_cons, ← setAll, ih fun e he => hes e (List.mem_cons_of_mem _ he)]
    simp only [List.map_cons, List.mem_cons]
    by_cases hk : k = e.1
    · rw [hk, Function.update_self, hes e List.mem_cons_self, ite_self,
        if_pos (Or.inl rfl)]
    · simp only [Function.update_of_ne hk, hk, false_or]

/-- The lines of the file that are not empty. -/
theorem filter_physicalLines (d : Dictionary) :
    ((physicalLines d).filter fun l => l != []).map rstrip = (sectionNames d).flatMap fun s =>
      rstrip (sectionLine s) :: (sectionEntries d s).map (entryLine s) := by
  have hline : ∀ k v, (valueLine k v != []) = true := by
    intro k v
    have hspaces : " = ".toList ≠ [] := by decide
    rw [bne_iff_ne, valueLine]
    exact List.append_ne_nil_of_left_ne_nil (List.append_ne_nil_of_right_ne_nil _ hspaces) _
  have hblock : ∀ s, (([] :: sectionLines d s).filter fun l => l != []).map rstrip =
      rstrip (sectionLine s) :: (sectionEntries d s).map (entryLine s) := by
    intro s
    have hall : ((sectionEntries d s).map fun e => valueLine (e.1.drop (s.length + 1))
        (e.2.getD [])).filter (fun l => l != []) = (sectionEntries d s).map fun e =>
          valueLine (e.1.drop (s.length + 1)) (e.2.getD []) := by
      refine List.filter_eq_self.mpr ?_
      intro l hl
      obtain ⟨e, -, rfl⟩ := List.mem_map.mp hl
      exact hline _ _
    rw [List.filter_cons_of_neg (by decide), sectionLines, List.filter_cons_of_pos (by
      rw [bne_iff_ne]
      exact List.cons_ne_nil _ _), hall, List.map_cons, List.map_map]
    rfl
  rw [physicalLines, List.filter_append, List.map_append]
  induction sectionNames d with
  | nil => rfl
  | cons s names ih =>
    rw [List.flatMap_cons, List.flatMap_cons, List.filter_append, List.map_append,
      List.append_assoc,
      ih, hblock]

end Run

/-- **Saving and loading.** When its strings can be saved, the dictionary that is loaded from the
file that `iniparser_dump_ini` printed has the same strings, whatever is in front of the buffer. -/
theorem load_dumpIni {d : Dictionary} (hwf : d.WellFormed) (hd : Dumpable d) (before : Char) :
    ∃ d' messages, iniparserLoad before (fun _ => plenty) (iniparserDumpIni d) = .dict d' messages ∧
      d'.WellFormed ∧ d'.contents = d.contents := by
  obtain ⟨hlines, hending⟩ := logicalLines_fileOf before (properLine_physicalLines hd)
    (Nat.lt_succ_self (fileOf (physicalLines d)).length) 0
  rw [filter_physicalLines] at hlines
  have hstart : ReadSoFar .start [] (fun _ => none) :=
    ⟨Dictionary.wellFormed_new 0, rfl, rfl, Dictionary.contents_new 0⟩
  obtain ⟨s', sec', hgo, hs'⟩ := goThrough_sections hd (fun s hs => hs) hlines hstart
  refine ⟨s'.dict, s'.messages, ?_, hs'.wellFormed, ?_⟩
  · rw [dumpIni_eq hd.getnsec_pos, load_eq, fileLines, hending, hgo, Entered.finish, Ending.finish,
      Load.finish, if_pos hs'.errs_eq]
  · have hmem : ∀ e ∈ reloaded d (sectionNames d), d.contents e.1 = some e.2 := by
      rintro ⟨k, v⟩ he
      rw [← Dictionary.mem_entries hwf]
      obtain ⟨s, hs, he⟩ := List.mem_flatMap.mp he
      rcases List.mem_cons.mp he with heq | he
      · obtain ⟨rfl, rfl⟩ := Prod.mk.inj heq
        obtain ⟨⟨v, hentry⟩, hcolon⟩ := mem_sectionNames.mp hs
        rwa [(hd.sections k v hentry hcolon).2] at hentry
      · exact (List.mem_filter.mp he).1
    rw [hs'.contents_eq]
    funext k
    rw [setAll_apply hmem]
    split
    · rfl
    · next hnot =>
      -- Every key is printed: it is a section, or its section is there.
      refine (Option.eq_none_iff_forall_ne_some.mpr ?_).symm
      intro v hv
      refine hnot (List.mem_map.mpr ⟨(k, v), ?_, rfl⟩)
      have hentry := (Dictionary.mem_entries hwf).mpr hv
      by_cases hcolon : ':' ∈ k
      · obtain ⟨s, name, val, hk, hs, hsection, -⟩ := hd.values k v hentry hcolon
        refine List.mem_flatMap.mpr ⟨s, mem_sectionNames.mpr ⟨⟨none, hsection⟩, hs⟩, ?_⟩
        refine List.mem_cons_of_mem _ (List.mem_filter.mpr ⟨hentry, ?_⟩)
        rw [List.isPrefixOf_iff_prefix, hk]
        exact ⟨name, by rw [List.append_assoc, List.singleton_append]⟩
      · refine List.mem_flatMap.mpr ⟨k, mem_sectionNames.mpr ⟨⟨v, hentry⟩, hcolon⟩, ?_⟩
        rw [(hd.sections k v hentry hcolon).2]
        exact List.mem_cons_self

/-- One board with its class. -/
def boardConfig : Dictionary where
  n := 2
  size := dictMinSz
  val := fun i => if i = 1 then some "hasim".toList else none
  key := fun i => if i = 0 then some "htg".toList else if i = 1 then some "htg:class".toList else none
  hash := fun i => if i = 0 then dictionaryHash "htg".toList
    else if i = 1 then dictionaryHash "htg:class".toList else 0

theorem entries_boardConfig : boardConfig.entries =
    [("htg".toList, none), ("htg:class".toList, some "hasim".toList)] := by
  decide +kernel

theorem wellFormed_boardConfig : boardConfig.WellFormed where
  hashed := by
    intro i k hkey
    simp only [boardConfig] at hkey ⊢
    split at hkey
    · next hi =>
      obtain rfl := Option.some.inj hkey
      rw [if_pos hi]
    · next hi =>
      split at hkey
      · next hi' =>
        obtain rfl := Option.some.inj hkey
        rw [if_neg hi, if_pos hi']
      · cases hkey
  distinct := by
    intro i _ j _ k hi hj
    simp only [boardConfig] at hi hj
    split at hi <;> split at hj
    · omega
    · split at hj
      · obtain rfl := Option.some.inj hi
        exact absurd (Option.some.inj hj) (by decide)
      · cases hj
    · split at hi
      · obtain rfl := Option.some.inj hj
        exact absurd (Option.some.inj hi) (by decide)
      · cases hi
    · split at hi
      · split at hj
        · omega
        · cases hj
      · cases hi
  used_le := by
    rw [← Dictionary.length_entries, entries_boardConfig]
    decide
  n_le := by decide
  minSz_le := le_refl _

theorem dumpable_boardConfig : Dumpable boardConfig where
  getnsec_pos := by
    rw [iniparserGetnsec, sectionNames, entries_boardConfig]
    decide
  sections := by
    intro k v hmem hcolon
    rw [entries_boardConfig] at hmem
    rcases List.mem_cons.mp hmem with heq | hmem
    · obtain ⟨rfl, rfl⟩ := Prod.mk.inj heq
      refine ⟨⟨?_, ?_, ?_, ?_, ?_, ?_⟩, rfl⟩ <;> decide
    · obtain ⟨rfl, rfl⟩ := Prod.mk.inj (List.mem_singleton.mp hmem)
      exact absurd (by decide) hcolon
  values := by
    intro k v hmem hcolon
    rw [entries_boardConfig] at hmem ⊢
    rcases List.mem_cons.mp hmem with heq | hmem
    · obtain ⟨rfl, rfl⟩ := Prod.mk.inj heq
      exact absurd hcolon (by decide)
    · obtain ⟨rfl, rfl⟩ := Prod.mk.inj (List.mem_singleton.mp hmem)
      refine ⟨"htg".toList, "class".toList, "hasim".toList, by decide, by decide, by decide,
        ⟨?_, ?_, ?_, ?_, ?_, ?_⟩, rfl, ⟨?_, ?_, ?_, ?_, ?_⟩, by decide, by decide⟩ <;> decide

theorem load_dumpIni_boardConfig : ∃ d' messages,
    iniparserLoad '\\' (fun _ => plenty) (iniparserDumpIni boardConfig) = .dict d' messages ∧
      d'.WellFormed ∧ d'.contents = boardConfig.contents :=
  load_dumpIni wellFormed_boardConfig dumpable_boardConfig '\\'

end LeapFpgaCtrl

end LeapPlatforms
