import Luaml.PatternPipes

namespace Luaml.Pattern

open Rust Str Res

theorem parseName_of_identifier {name : Str} (h : isIdentifier name) (make : Str → Pattern)
    (message input : Str) : parseName make message name input = .ok (make name) := by
  rw [parseName, (Tight.of_ordinary (.name h) (identifier_ne_nil h)).trim_eq]
  exact if_pos h

theorem trim_sigil {c : Char} (hc : c ∉ special) {name : Str} (h : isIdentifier name) :
    trim (c :: name) = c :: name :=
  (Tight.of_ordinary (.cons hc (.name h)) (by simp)).trim_eq

theorem parse_variable {name : Str} (h : isIdentifier name) :
    parsePatternValue ('$' :: name) = .ok (.variable name) := by
  have htrim : trim ('$' :: name) = '$' :: name := trim_sigil (by decide) h
  have hnone : parseI64 ('$' :: name) = none := parseI64_cons_none rfl (by decide) (by decide) name
  have hdollar : stripPrefix '$' ('$' :: name) = some name := rfl
  obtain ⟨hwild, henum, hquote, htrue, hfalse⟩ := not_early (c := '$') (by decide) name
  rw [parsePatternValue_eq]
  simp only [parseValue, htrim, List.isEmpty_cons, Bool.false_eq_true, if_false,
    if_neg hwild, henum, hquote, if_neg htrue, if_neg hfalse, hnone, hdollar,
    parseName_of_identifier h]

theorem parse_pin {name : Str} (h : isIdentifier name) :
    parsePatternValue ('^' :: name) = .ok (.pin name) := by
  have htrim : trim ('^' :: name) = '^' :: name := trim_sigil (by decide) h
  have hnone : parseI64 ('^' :: name) = none := parseI64_cons_none rfl (by decide) (by decide) name
  have hdollar : stripPrefix '$' ('^' :: name) = none := rfl
  have hcaret : stripPrefix '^' ('^' :: name) = some name := rfl
  obtain ⟨hwild, henum, hquote, htrue, hfalse⟩ := not_early (c := '^') (by decide) name
  rw [parsePatternValue_eq]
  simp only [parseValue, htrim, List.isEmpty_cons, Bool.false_eq_true, if_false,
    if_neg hwild, henum, hquote, if_neg htrue, if_neg hfalse, hnone, hdollar, hcaret,
    parseName_of_identifier h]

theorem parse_enum {name : Str} (h : isIdentifier name) :
    parsePatternValue (':' :: name ++ [':']) = .ok (.enum name) := by
  have htrim : trim (':' :: name ++ [':']) = ':' :: name ++ [':'] :=
    (Tight.enclosed rfl rfl name).trim_eq
  have hslice : (slice (':' :: name ++ [':']) 1 (byteLen (':' :: name ++ [':']) - 1) :
      Res PatternParseError Str) = .ok name := slice_bracketed rfl rfl name
  have hends : (startsWith (':' :: name ++ [':']) ':' && endsWith (':' :: name ++ [':']) ':') =
      true := by
    rw [endsWith_concat]
    rfl
  have hlen : 3 ≤ byteLen (':' :: name ++ [':']) := by
    obtain ⟨c, t, rfl⟩ := List.exists_cons_of_ne_nil (identifier_ne_nil h)
    have hpos := c.utf8Size_pos
    have hcolon : ':'.utf8Size = 1 := rfl
    simp only [byteLen_append, byteLen_cons, byteLen_nil, List.cons_append, hcolon]
    omega
  have hwild : ¬(':' :: name ++ [':'] = ['*'] ∨ ':' :: name ++ [':'] = ['_']) := by simp
  have hempty : (':' :: name ++ [':']).isEmpty = false := rfl
  rw [parsePatternValue_eq]
  simp only [parseValue, htrim, hempty, Bool.false_eq_true, if_false, if_neg hwild, hends, hlen,
    decide_true, Bool.and_self, if_true, hslice, ok_bind, if_pos h]

theorem parse_string (text : Str) :
    parsePatternValue ('"' :: text ++ ['"']) = .ok (.stringLiteral text) := by
  have htrim : trim ('"' :: text ++ ['"']) = '"' :: text ++ ['"'] :=
    (Tight.enclosed rfl rfl text).trim_eq
  have hslice : (slice ('"' :: text ++ ['"']) 1 (byteLen ('"' :: text ++ ['"']) - 1) :
      Res PatternParseError Str) = .ok text := slice_bracketed rfl rfl text
  have hends : (startsWith ('"' :: text ++ ['"']) '"' && endsWith ('"' :: text ++ ['"']) '"') =
      true := by
    rw [endsWith_concat]
    rfl
  have hcolon : startsWith ('"' :: text ++ ['"']) ':' = false := rfl
  have hwild : ¬('"' :: text ++ ['"'] = ['*'] ∨ '"' :: text ++ ['"'] = ['_']) := by simp
  have hempty : ('"' :: text ++ ['"']).isEmpty = false := rfl
  rw [parsePatternValue_eq]
  simp only [parseValue, htrim, hempty, Bool.false_eq_true, if_false, if_neg hwild, hcolon,
    Bool.false_and, hends, Bool.true_or, if_true, hslice, ok_bind]

theorem parse_number (n : Int64) :
    parsePatternValue (intText n.toInt) = .ok (.numberLiteral n) := by
  have htrim : trim (intText n.toInt) = intText n.toInt :=
    (Tight.of_ordinary (.intText _) (intText_ne_nil _)).trim_eq
  have hparse : parseI64 (intText n.toInt) = some n := by
    rw [parseI64_intText ⟨n.le_toInt, n.toInt_lt⟩, Int64.ofInt_toInt]
  obtain ⟨c, s, hcons⟩ := List.exists_cons_of_ne_nil (intText_ne_nil n.toInt)
  have hfirst : isDigit c || c == '-' := mem_intText (n := n.toInt) (by simp [hcons])
  have hnone : ['*', '_', ':', '"', '\'', 't', 'f'].all fun d => !(isDigit d || d == '-') := by
    decide
  have hc : c ∉ ['*', '_', ':', '"', '\'', 't', 'f'] := by
    intro hc
    have hnot := List.all_eq_true.mp hnone c hc
    rw [hfirst] at hnot
    exact Bool.false_ne_true hnot
  rw [hcons] at htrim hparse ⊢
  obtain ⟨hwild, henum, hquote, htrue, hfalse⟩ := not_early hc s
  rw [parsePatternValue_eq]
  simp only [parseValue, htrim, List.isEmpty_cons, Bool.false_eq_true, if_false, if_neg hwild,
    henum, hquote, if_neg htrue, if_neg hfalse, hparse]

mutual
/-- In every list of the pattern the first pipe that the scan finds, quotes or not, is the one that
separates head and tail, if any, and the brackets that the scans count stay within `i32`. -/
def Separable : Pattern → Prop
  | .list p => SeparableList p
  | .map fields =>
    NestsUnquoted none 0 (join ", ".toList (printEntries fields)) ∧ SeparableFields fields
  | .wildcard | .enum _ | .stringLiteral _ | .numberLiteral _ | .boolLiteral _ | .variable _
  | .pin _ => True

def SeparableList : ListPattern → Prop
  | .empty => True
  | .headTail head tail =>
    (PipeFree 0 (print head) ∧ totalRise (print head) = 0) ∧ Separable head ∧ Separable tail
  | .elements ps =>
    (PipeFree 0 (printList (.elements ps)) ∧ NestsUnquoted none 0 (printList (.elements ps))) ∧
      SeparableElements ps

def SeparableElements : List Pattern → Prop
  | [] => True
  | p :: ps => Separable p ∧ SeparableElements ps

def SeparableFields : List (Str × Pattern) → Prop
  | [] => True
  | (_, p) :: fields => Separable p ∧ SeparableFields fields
end

theorem Split.step_ne_err (delim : Char) (st : Split) (ch : Char) (e : PatternParseError) :
    st.step delim ch ≠ .err e := by
  unfold step checkedI32
  split_ifs <;> simp

theorem Split.read_ne_err (delim : Char) (st : Split) (s : Str) (e : PatternParseError) :
    Split.read delim st s ≠ .err e := by
  induction s generalizing st with
  | nil => simp [Split.read]
  | cons ch s ih =>
    rw [Split.read]
    cases hstep : st.step delim ch with
    | ok st' => exact ih st'
    | err e' => exact absurd hstep (Split.step_ne_err _ _ _ _)
    | panic c => simp

theorem splitTopLevel_isOk (s : Str) (delim : Char) :
    (∃ parts, splitTopLevel s delim = .ok parts) ↔ NestsUnquoted none 0 s := by
  rw [← returns_splitTopLevel s delim]
  constructor
  · rintro ⟨parts, h⟩
    rw [h]
    exact returns_ok _
  · intro h
    cases hsplit : splitTopLevel s delim with
    | ok parts => exact ⟨parts, rfl⟩
    | panic c => simp [hsplit] at h
    | err e =>
      unfold splitTopLevel at hsplit
      cases hread : Split.read delim Split.start s with
      | ok st => simp [hread] at hsplit
      | err e' => exact absurd hread (Split.read_ne_err _ _ _ _)
      | panic c => simp [hread] at hsplit

theorem eq_of_pipes {p q p' q' : Str} (h : p ++ '|' :: q = p' ++ '|' :: q')
    (hpipes : pipes p = pipes p') : p = p' := by
  induction p generalizing p' with
  | nil =>
    cases p' with
    | nil => rfl
    | cons c p' =>
      obtain ⟨rfl, -⟩ := List.cons.inj h
      simp [pipes] at hpipes
  | cons c p ih =>
    cases p' with
    | nil =>
      obtain ⟨rfl, -⟩ := List.cons.inj h
      simp [pipes] at hpipes
    | cons c' p' =>
      obtain ⟨rfl, htail⟩ := List.cons.inj h
      rw [ih htail (by simpa [pipes, List.count_cons] using hpipes)]

theorem parseList_eq_ok {m : Str} {q : ListPattern} :
    parseListPattern parsePatternValue ('[' :: m ++ [']']) = .ok (.list q) ↔
      ∃ r ps, listValues (trim m) = .ok r ∧ collect parsePatternValue r.1 = .ok ps ∧
        listOf (trim m) r.2 ps = q := by
  simp only [parseListPattern_eq, bind_eq_ok, Res.ok.injEq, Pattern.list.injEq]
  constructor
  · rintro ⟨r, hr, ps, hps, hq⟩
    exact ⟨r, ps, hr, hps, hq⟩
  · rintro ⟨r, ps, hr, hps, hq⟩
    exact ⟨r, hr, ps, hps, hq⟩

theorem collect_pair {v w : Str} {ps : List Pattern} :
    collect parsePatternValue [v, w] = .ok ps ↔
      ∃ head tail, parsePatternValue v = .ok head ∧ parsePatternValue w = .ok tail ∧
        ps = [head, tail] := by
  simp [collect_eq_ok, List.forall₂_cons_left_iff]

theorem listValues_cut {p q : Str} (h : findPipe (p ++ '|' :: q) = .ok (some (byteLen p))) :
    listValues (p ++ '|' :: q) = .ok ([trim p, trim q], true) := by
  rw [listValues, h, ok_bind]
  dsimp only
  rw [halves, splitAtByte_append]
  rfl

theorem parseHeadTail_iff {head tail : Pattern} (hhead : Documented head)
    (htail : Documented tail) :
    parseListPattern parsePatternValue ('[' :: printList (.headTail head tail) ++ [']']) =
        .ok (.list (.headTail head tail)) ↔
      (PipeFree 0 (print head) ∧ totalRise (print head) = 0) ∧
        parsePatternValue (print head) = .ok head ∧ parsePatternValue (print tail) = .ok tail := by
  have hinner :
      printList (.headTail head tail) = print head ++ [' '] ++ '|' :: ' ' :: print tail := by
    simp [printList]
  have htrim : trim (printList (.headTail head tail)) = printList (.headTail head tail) :=
    ((tight_print hhead).append _ (tight_print htail)).trim_eq
  have hempty : (printList (.headTail head tail)).isEmpty = false := by
    simp [hinner]
  have hcut : findPipe (print head ++ [' '] ++ '|' :: ' ' :: print tail) =
      .ok (some (byteLen (print head ++ [' ']))) ↔
        PipeFree 0 (print head) ∧ totalRise (print head) = 0 := by
    have hspace : totalRise (print head ++ [' ']) = totalRise (print head) := by
      simp [totalRise, rise]
    rw [findPipe, findPipeFrom_cut (by decide), pipeFree_append, hspace, Int.zero_add]
    constructor
    · rintro ⟨⟨hfree, -⟩, hrise⟩
      exact ⟨hfree, hrise⟩
    · rintro ⟨hfree, hrise⟩
      rw [hrise]
      exact ⟨⟨hfree, by simp [PipeFree, rise, InI32]⟩, rfl⟩
  rw [parseList_eq_ok, htrim, ← hcut]
  constructor
  · rintro ⟨r, ps, hr, hps, hlist⟩
    obtain ⟨pipe, hpipe, hr⟩ := bind_eq_ok.mp hr
    cases pipe with
    | none =>
      obtain ⟨elements, -, hr⟩ := bind_eq_ok.mp hr
      obtain rfl := Res.ok.inj hr
      simp [listOf, hempty] at hlist
    | some i =>
      obtain ⟨p, q, hpq, rfl, hhalves⟩ := halves_of_findPipe hpipe
      obtain rfl := Res.ok.inj hr
      rw [hhalves] at hps
      obtain ⟨head', tail', hp, hq, rfl⟩ := collect_pair.mp hps
      simp only [listOf, hempty, Bool.false_eq_true, if_false] at hlist
      obtain ⟨rfl, rfl⟩ := ListPattern.headTail.inj hlist
      -- the cut leaves as many pipes on the left as the head has, so it is the separator
      have hpipes : pipes p = pipes (print head' ++ [' ']) := by
        rw [← pipes_trim p, pipes_of_parse hp, pipes_append]
        rfl
      obtain rfl : p = print head' ++ [' '] := eq_of_pipes (hpq.symm.trans hinner) hpipes
      have htailText : q = ' ' :: print tail' := by
        have := hpq.symm.trans hinner
        simpa using this
      rw [(tight_print hhead).trim_append_space] at hp
      rw [htailText, (tight_print htail).trim_space_cons] at hq
      rw [hinner] at hpipe
      exact ⟨hpipe, hp, hq⟩
  · rintro ⟨hfound, hp, hq⟩
    refine ⟨_, [head, tail], hinner ▸ listValues_cut hfound, ?_, ?_⟩
    · rw [collect_pair, (tight_print hhead).trim_append_space, (tight_print htail).trim_space_cons]
      exact ⟨head, tail, hp, hq, rfl⟩
    · simp [listOf, hempty]

theorem parseElements_iff {ps : List Pattern} (hne : ps ≠ []) (h : DocumentedElements ps) :
    parseListPattern parsePatternValue ('[' :: printList (.elements ps) ++ [']']) =
        .ok (.list (.elements ps)) ↔
      (PipeFree 0 (printList (.elements ps)) ∧ NestsUnquoted none 0 (printList (.elements ps))) ∧
        collect parsePatternValue (printElements ps) = .ok ps := by
  have htight := tight_printElements h
  have hprints : printElements ps ≠ [] := by
    cases ps with
    | nil => exact absurd rfl hne
    | cons p ps => simp [printElements]
  have hinner : Tight (printList (.elements ps)) := .join hprints htight
  have hempty : (printList (.elements ps)).isEmpty = false := by
    simpa using hinner.ne_nil
  have hparts : ∀ parts, splitTopLevel (printList (.elements ps)) ',' = .ok parts →
      parts.map trim = printElements ps := fun parts hsplit =>
    splitTopLevel_join (fun t ht => ⟨uncut_printElements ps h t ht, htight t ht⟩) hsplit
  rw [parseList_eq_ok, hinner.trim_eq, ← findPipeFrom_eq_none (by decide), ← findPipe,
    ← splitTopLevel_isOk _ ',']
  constructor
  · rintro ⟨r, ps', hr, hps, hlist⟩
    obtain ⟨pipe, hpipe, hr⟩ := bind_eq_ok.mp hr
    cases pipe with
    | some i =>
      obtain ⟨p, q, -, -, hhalves⟩ := halves_of_findPipe hpipe
      obtain rfl := Res.ok.inj hr
      rw [hhalves] at hps
      obtain ⟨head, tail, -, -, rfl⟩ := collect_pair.mp hps
      simp [listOf, hempty] at hlist
    | none =>
      obtain ⟨parts, hsplit, hr⟩ := bind_eq_ok.mp hr
      obtain rfl := Res.ok.inj hr
      simp only [listOf, hempty, Bool.false_eq_true, if_false, ListPattern.elements.injEq] at hlist
      rw [hparts parts hsplit, hlist] at hps
      exact ⟨⟨hpipe, parts, hsplit⟩, hps⟩
  · rintro ⟨⟨hpipe, parts, hsplit⟩, hps⟩
    refine ⟨(parts.map trim, false), ps, ?_, ?_, ?_⟩
    · rw [listValues, hpipe, ok_bind]
      dsimp only
      rw [hsplit, ok_bind]
    · rwa [hparts parts hsplit]
    · simp [listOf, hempty]

theorem parseMap_iff {fields : List (Str × Pattern)} (h : DocumentedFields fields) :
    parseMapPattern parsePatternValue ('{' :: join ", ".toList (printEntries fields) ++ ['}']) =
        .ok (.map fields) ↔
      NestsUnquoted none 0 (join ", ".toList (printEntries fields)) ∧
        collect (parseMapEntry parsePatternValue) (printEntries fields) = .ok fields := by
  have htight := tight_printEntries h
  have htrim : trim (join ", ".toList (printEntries fields)) =
      join ", ".toList (printEntries fields) := by
    cases fields with
    | nil => rfl
    | cons f fields => exact (Tight.join (by simp [printEntries]) htight).trim_eq
  have hparts : ∀ parts, splitTopLevel (join ", ".toList (printEntries fields)) ',' = .ok parts →
      collect (parseMapEntry parsePatternValue) parts =
        collect (parseMapEntry parsePatternValue) (printEntries fields) := by
    intro parts hsplit
    have hmap := splitTopLevel_join
      (fun t ht => ⟨uncut_printEntries fields h t ht, htight t ht⟩) hsplit
    rw [← hmap, collect_map]
    refine collect_congr fun pair hpair => ?_
    have hpair' : Tight (trim pair) := htight _ (hmap ▸ List.mem_map_of_mem hpair)
    simp only [parseMapEntry, hpair'.trim_eq]
  rw [parseMapPattern_eq, htrim, ← splitTopLevel_isOk _ ',']
  simp only [bind_eq_ok, Res.ok.injEq, Pattern.map.injEq]
  constructor
  · rintro ⟨parts, hsplit, fields', hfields, rfl⟩
    exact ⟨⟨parts, hsplit⟩, by rw [← hparts parts hsplit, hfields]⟩
  · rintro ⟨⟨parts, hsplit⟩, hfields⟩
    exact ⟨parts, hsplit, fields, by rw [hparts parts hsplit, hfields], rfl⟩

theorem parseMapEntry_print {key : Str} (hkey : isIdentifier key) {p : Pattern}
    (h : Documented p) :
    parseMapEntry parsePatternValue (key ++ ": ".toList ++ print p) =
      parsePatternValue (print p) >>= fun p => .ok (key, p) := by
  have htight := Tight.of_ordinary (.name hkey) (identifier_ne_nil hkey)
  have hcolon : ':' ∉ key := (Ordinary.name hkey).not_mem (by decide)
  have hsplit : splitOnce ':' (trim (key ++ ": ".toList ++ print p)) =
      some (key, ' ' :: print p) := by
    rw [(htight.append _ (tight_print h)).trim_eq, List.append_assoc]
    exact splitOnce_of_not_mem hcolon _
  rw [parseMapEntry_of_split hsplit (by rwa [htight.trim_eq]), htight.trim_eq,
    (tight_print h).trim_space_cons]

mutual
theorem parse_print_iff (p : Pattern) (h : Documented p) :
    parsePatternValue (print p) = .ok p ↔ Separable p := by
  cases p with
  | wildcard => exact iff_of_true (by rfl) trivial
  | enum name => exact iff_of_true (parse_enum h) trivial
  | stringLiteral text => exact iff_of_true (parse_string text) trivial
  | numberLiteral n => exact iff_of_true (parse_number n) trivial
  | boolLiteral b => cases b <;> exact iff_of_true (by rfl) trivial
  | «variable» name => exact iff_of_true (parse_variable h) trivial
  | pin name => exact iff_of_true (parse_pin h) trivial
  | list p =>
    rw [print, parsePatternValue_eq, parseValue_bracketed (Tight.enclosed rfl rfl _).trim_eq]
    exact parse_printList_iff p h
  | map fields =>
    rw [print, parsePatternValue_eq, parseValue_braced (Tight.enclosed rfl rfl _).trim_eq,
      parseMap_iff h, parse_printEntries_iff fields h]
    rfl

theorem parse_printList_iff (p : ListPattern) (h : DocumentedList p) :
    parseListPattern parsePatternValue ('[' :: printList p ++ [']']) = .ok (.list p) ↔
      SeparableList p := by
  cases p with
  | empty => exact iff_of_true (by rfl) trivial
  | headTail head tail =>
    rw [parseHeadTail_iff h.1 h.2, parse_print_iff head h.1, parse_print_iff tail h.2]
    rfl
  | elements ps =>
    rw [parseElements_iff h.1 h.2, parse_printElements_iff ps h.2]
    rfl

theorem parse_printElements_iff (ps : List Pattern) (h : DocumentedElements ps) :
    collect parsePatternValue (printElements ps) = .ok ps ↔ SeparableElements ps := by
  cases ps with
  | nil => exact iff_of_true rfl trivial
  | cons p ps =>
    rw [printElements, SeparableElements, ← parse_print_iff p h.1,
      ← parse_printElements_iff ps h.2, collect_eq_ok, collect_eq_ok, List.forall₂_cons]

theorem parse_printEntries_iff (fields : List (Str × Pattern)) (h : DocumentedFields fields) :
    collect (parseMapEntry parsePatternValue) (printEntries fields) = .ok fields ↔
      SeparableFields fields := by
  cases fields with
  | nil => exact iff_of_true rfl trivial
  | cons f fields =>
    obtain ⟨key, p⟩ := f
    rw [printEntries, SeparableFields, ← parse_print_iff p h.2.1,
      ← parse_printEntries_iff fields h.2.2, collect_eq_ok, collect_eq_ok, List.forall₂_cons,
      parseMapEntry_print h.1 h.2.1]
    simp [bind_eq_ok]
end

/-- The pipe in a string is taken for the one between head and tail. -/
theorem quoted_pipe_cut :
    ¬∀ p : Pattern, Documented p → parsePatternValue (print p) = .ok p := by
  intro h
  have hparse := h (.list (.elements [.stringLiteral "a|b".toList]))
    ⟨by simp, ⟨by decide, by decide, by decide⟩, trivial⟩
  have herr : parsePatternValue (print (.list (.elements [.stringLiteral "a|b".toList]))) =
      .err (parseErr "bare words not allowed — use :enum:, \"string\", $var, or *".toList
        "\"a".toList) := by
    rfl
  rw [herr] at hparse
  cases hparse

end Luaml.Pattern
