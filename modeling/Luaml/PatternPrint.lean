import Luaml.PatternLaws

namespace Luaml.Pattern

open Rust Str Res

mutual
def print : Pattern → Str
  | .wildcard => ['*']
  | .enum name => ':' :: name ++ [':']
  | .stringLiteral text => '"' :: text ++ ['"']
  | .numberLiteral n => intText n.toInt
  | .boolLiteral true => "true".toList
  | .boolLiteral false => "false".toList
  | .variable name => '$' :: name
  | .pin name => '^' :: name
  | .list p => '[' :: printList p ++ [']']
  | .map fields => '{' :: join ", ".toList (printEntries fields) ++ ['}']

def printList : ListPattern → Str
  | .empty => []
  | .headTail head tail => print head ++ " | ".toList ++ print tail
  | .elements ps => join ", ".toList (printElements ps)

def printElements : List Pattern → List Str
  | [] => []
  | p :: ps => print p :: printElements ps

def printEntries : List (Str × Pattern) → List Str
  | [] => []
  | (key, p) :: fields => (key ++ ": ".toList ++ print p) :: printEntries fields
end

mutual
/-- The names are identifiers, the strings have neither a double quote nor a line break in them, and
a list of elements has elements. -/
def Documented : Pattern → Prop
  | .enum name | .variable name | .pin name => isIdentifier name
  | .stringLiteral text => '"' ∉ text ∧ '\n' ∉ text ∧ '\r' ∉ text
  | .list p => DocumentedList p
  | .map fields => DocumentedFields fields
  | .wildcard | .numberLiteral _ | .boolLiteral _ => True

def DocumentedList : ListPattern → Prop
  | .empty => True
  | .headTail head tail => Documented head ∧ Documented tail
  | .elements ps => ps ≠ [] ∧ DocumentedElements ps

def DocumentedElements : List Pattern → Prop
  | [] => True
  | p :: ps => Documented p ∧ DocumentedElements ps

def DocumentedFields : List (Str × Pattern) → Prop
  | [] => True
  | (key, p) :: fields => isIdentifier key ∧ Documented p ∧ DocumentedFields fields
end

def scanned : Str := ['[', ']', '{', '}', '"', '\'', ',']

/-- Reading the text from `st` on leaves `st'`, with the text added to the current part. -/
structure Split.Adds (st st' : Split) (s : Str) : Prop where
  quote : st'.quote = none
  depth : st'.depth = st.depth
  parts : st'.parts = st.parts
  current : st'.current = st.current ++ s

def Uncut (m : Int) (s : Str) : Prop :=
  ∀ st st' : Split, st.quote = none → InI32 st.depth → m ≤ st.depth →
    Split.read ',' st s = .ok st' → st.Adds st' s

theorem Split.read_append (delim : Char) (st : Split) (s t : Str) :
    Split.read delim st (s ++ t) = Split.read delim st s >>= fun st' => Split.read delim st' t := by
  induction s generalizing st with
  | nil => rfl
  | cons ch s ih =>
    rw [List.cons_append, Split.read, Split.read]
    cases st.step delim ch with
    | ok st' => exact ih st'
    | err e => rfl
    | panic c => rfl

theorem Uncut.mono {m n : Int} {s : Str} (h : Uncut m s) (hmn : m ≤ n) : Uncut n s :=
  fun st st' hquote hin hdepth hread => h st st' hquote hin (Int.le_trans hmn hdepth) hread

theorem Uncut.nil (m : Int) : Uncut m [] := by
  intro st st' hquote _ _ hread
  obtain rfl := Res.ok.inj hread
  exact ⟨hquote, rfl, rfl, (List.append_nil _).symm⟩

theorem Uncut.append {m : Int} {s t : Str} (hs : Uncut m s) (ht : Uncut m t) :
    Uncut m (s ++ t) := by
  intro st st' hquote hin hdepth hread
  rw [Split.read_append] at hread
  obtain ⟨st₁, h₁, h₂⟩ := bind_eq_ok.mp hread
  obtain ⟨hquote₁, hdepth₁, hparts₁, hcurrent₁⟩ := hs st st₁ hquote hin hdepth h₁
  rw [← hdepth₁] at hin hdepth
  obtain ⟨hquote₂, hdepth₂, hparts₂, hcurrent₂⟩ := ht st₁ st' hquote₁ hin hdepth h₂
  exact ⟨hquote₂, hdepth₂.trans hdepth₁, hparts₂.trans hparts₁, by simp [hcurrent₂, hcurrent₁]⟩

theorem Split.quote_eq_none {st : Split} : st.quote = none ↔ st.inQuotes = false := by
  simp [Split.quote]

theorem Split.read_singleton {delim ch : Char} {st st' : Split}
    (h : Split.read delim st [ch] = .ok st') : st.step delim ch = .ok st' := by
  obtain ⟨st₁, hstep, hnil⟩ := bind_eq_ok.mp h
  rw [hstep, Res.ok.inj hnil]

theorem Split.step_kept {st st' : Split} {ch : Char} (hquote : st.quote = none)
    (hnot : ¬(ch = '"' ∨ ch = '\'')) (hcut : ¬(ch = ',' ∧ st.depth = 0)) (hin : InI32 st.depth)
    (h : st.step ',' ch = .ok st') :
    st'.quote = none ∧ InI32 st'.depth ∧ st'.depth = st.depth + rise ch ∧ st'.parts = st.parts ∧
      st'.current = st.current ++ [ch] := by
  rw [Split.step, Split.quote_eq_none.mp hquote, if_neg Bool.false_ne_true, if_neg hnot] at h
  rw [rise]
  split_ifs at h ⊢ with hopen hclose
  · obtain ⟨d, hd, h⟩ := bind_eq_ok.mp h
    obtain ⟨hin', rfl⟩ := checkedI32_eq_ok.mp hd
    obtain rfl := Res.ok.inj h
    exact ⟨hquote, hin', rfl, rfl, rfl⟩
  · obtain ⟨d, hd, h⟩ := bind_eq_ok.mp h
    obtain ⟨hin', rfl⟩ := checkedI32_eq_ok.mp hd
    obtain rfl := Res.ok.inj h
    exact ⟨hquote, hin', rfl, rfl, rfl⟩
  · obtain rfl := Res.ok.inj h
    exact ⟨hquote, hin, (Int.add_zero _).symm, rfl, rfl⟩

theorem Uncut.plain {ch : Char} (h : ch ∉ scanned) (m : Int) : Uncut m [ch] := by
  intro st st' hquote hin _ hread
  simp only [scanned, List.mem_cons, List.not_mem_nil, or_false, not_or] at h
  obtain ⟨hquote', -, hdepth, hparts, hcurrent⟩ :=
    Split.step_kept hquote (by simp [h]) (by simp [h]) hin (Split.read_singleton hread)
  have hrise : rise ch = 0 := by simp [rise, h]
  exact ⟨hquote', by omega, hparts, hcurrent⟩

theorem Uncut.comma : Uncut 1 [','] := by
  intro st st' hquote hin hdepth hread
  obtain ⟨hquote', -, hdepth', hparts, hcurrent⟩ :=
    Split.step_kept hquote (by decide) (by omega) hin (Split.read_singleton hread)
  exact ⟨hquote', hdepth'.trans (Int.add_zero _), hparts, hcurrent⟩

theorem Uncut.bracketed {a b : Char} (ha : a = '[' ∨ a = '{') (hb : b = ']' ∨ b = '}') {s : Str}
    (h : Uncut 1 s) : Uncut 0 (a :: s ++ [b]) := by
  intro st st' hquote hin hdepth hread
  rw [List.cons_append, Split.read] at hread
  obtain ⟨st₁, hopen, hread⟩ := bind_eq_ok.mp hread
  rw [Split.read_append] at hread
  obtain ⟨st₂, hinner, hread⟩ := bind_eq_ok.mp hread
  have hclose := Split.read_singleton hread
  have hrise : rise a = 1 ∧ rise b = -1 := by
    rcases ha with rfl | rfl <;> rcases hb with rfl | rfl <;> exact ⟨rfl, rfl⟩
  have hnot : ¬(a = '"' ∨ a = '\'') ∧ a ≠ ',' := by
    rcases ha with rfl | rfl <;> decide
  have hnot' : ¬(b = '"' ∨ b = '\'') ∧ b ≠ ',' := by
    rcases hb with rfl | rfl <;> decide
  obtain ⟨hquote₁, hin₁, hdepth₁, hparts₁, hcurrent₁⟩ :=
    Split.step_kept hquote hnot.1 (mt And.left hnot.2) hin hopen
  obtain ⟨hquote₂, hdepth₂, hparts₂, hcurrent₂⟩ := h st₁ st₂ hquote₁ hin₁ (by omega) hinner
  obtain ⟨hquote₃, -, hdepth₃, hparts₃, hcurrent₃⟩ :=
    Split.step_kept hquote₂ hnot'.1 (mt And.left hnot'.2) (hdepth₂ ▸ hin₁) hclose
  refine ⟨hquote₃, by omega, ?_, ?_⟩
  · rw [hparts₃, hparts₂, hparts₁]
  · simp [hcurrent₃, hcurrent₂, hcurrent₁]

theorem Split.read_inQuotes {st : Split} (hin : st.inQuotes = true) {s : Str}
    (h : st.quoteChar ∉ s) (delim : Char) :
    Split.read delim st s = .ok { st with current := st.current ++ s } := by
  induction s generalizing st with
  | nil => simp [Split.read]
  | cons ch s ih =>
    obtain ⟨hne, hs⟩ := not_or.mp (mt List.mem_cons.mpr h)
    have hstep : st.step delim ch = .ok (st.push ch) := by
      rw [Split.step, hin, if_pos rfl, if_neg (Ne.symm hne)]
    rw [Split.read, hstep, ok_bind, ih (by exact hin) (by exact hs)]
    simp [Split.push]

theorem Uncut.quoted {s : Str} (h : '"' ∉ s) (m : Int) : Uncut m ('"' :: s ++ ['"']) := by
  intro st st' hquote _ _ hread
  have hquotes := Split.quote_eq_none.mp hquote
  rw [List.cons_append, Split.read] at hread
  obtain ⟨st₁, hopen, hread⟩ := bind_eq_ok.mp hread
  rw [Split.step, hquotes] at hopen
  simp at hopen
  obtain rfl := hopen
  rw [Split.read_append, Split.read_inQuotes rfl (by exact h), ok_bind] at hread
  have hclose := Split.read_singleton hread
  rw [Split.step] at hclose
  simp at hclose
  obtain rfl := hclose
  exact ⟨by simp [Split.quote], rfl, rfl, by simp [Split.push]⟩

theorem Uncut.of_all {s : Str} (h : s.all fun c => decide (c ∉ scanned)) (m : Int) :
    Uncut m s := by
  induction s with
  | nil => exact .nil m
  | cons c s ih =>
    obtain ⟨hc, hs⟩ := Bool.and_eq_true_iff.mp h
    exact (Uncut.plain (of_decide_eq_true hc) m).append (ih hs)

def spaces : List Char :=
  [0x9, 0xa, 0xb, 0xc, 0xd, 0x20, 0x85, 0xa0, 0x1680, 0x2000, 0x2001, 0x2002, 0x2003, 0x2004,
    0x2005, 0x2006, 0x2007, 0x2008, 0x2009, 0x200a, 0x2028, 0x2029, 0x202f, 0x205f, 0x3000].map
      Char.ofNat

theorem mem_spaces {c : Char} (h : isWhitespace c) : c ∈ spaces := by
  refine List.mem_map.mpr ⟨c.toNat, ?_, Char.ofNat_toNat c⟩
  simp only [isWhitespace, Bool.or_eq_true, Bool.and_eq_true, decide_eq_true_eq, beq_iff_eq] at h
  simp only [List.mem_cons, List.not_mem_nil, or_false]
  omega

theorem mem_intText {n : Int} {c : Char} (h : c ∈ intText n) : isDigit c || c == '-' := by
  unfold intText at h
  split_ifs at h
  · rcases List.mem_cons.mp h with rfl | h
    · rfl
    · simp [isDigit_of_mem_toDigits h]
  · simp [isDigit_of_mem_toDigits h]

def special : Str := spaces ++ scanned ++ ['|', ':']

def Ordinary (s : Str) : Prop := ∀ c ∈ s, c ∉ special

namespace Ordinary

theorem of_all {s : Str} {p : Char → Bool} (hp : special.all fun c => !p c)
    (h : ∀ c ∈ s, p c) : Ordinary s := by
  intro c hc hspecial
  have hnot := List.all_eq_true.mp hp c hspecial
  rw [h c hc] at hnot
  exact Bool.false_ne_true hnot

theorem name {name : Str} (h : isIdentifier name) : Ordinary name := by
  apply of_all (p := fun c => Char.isAlphanumeric c || c == '_')
  · decide +kernel
  · intro c hc
    cases name with
    | nil => cases hc
    | cons first rest =>
      obtain ⟨hfirst, hrest⟩ := Bool.and_eq_true_iff.mp h
      rcases List.mem_cons.mp hc with rfl | hc
      · rcases Bool.or_eq_true_iff.mp hfirst with h | h
        · simp [Char.isAlphanumeric, h]
        · simp [h]
      · exact List.all_eq_true.mp hrest c hc

theorem intText (n : Int) : Ordinary (intText n) := by
  apply of_all (p := fun c => isDigit c || c == '-')
  · decide +kernel
  · exact fun c hc => mem_intText hc

theorem cons {c : Char} (hc : c ∉ special) {s : Str} (h : Ordinary s) : Ordinary (c :: s) :=
  List.forall_mem_cons.mpr ⟨hc, h⟩

theorem uncut {s : Str} (h : Ordinary s) (m : Int) : Uncut m s :=
  .of_all (List.all_eq_true.mpr fun c hc => decide_eq_true fun hscanned =>
    h c hc (by simp [special, hscanned])) m

theorem not_isWhitespace {s : Str} (h : Ordinary s) : ∀ c ∈ s, isWhitespace c = false := by
  intro c hc
  rw [← Bool.not_eq_true]
  intro hspace
  exact h c hc (by simp [special, mem_spaces hspace])

theorem not_mem {s : Str} (h : Ordinary s) {c : Char} (hc : c ∈ special) : c ∉ s :=
  fun hmem => h c hmem hc

end Ordinary

theorem uncut_join {m : Int} (hm : 1 ≤ m) {ss : List Str} (h : ∀ s ∈ ss, Uncut m s) :
    Uncut m (join ", ".toList ss) := by
  induction ss with
  | nil => exact .nil m
  | cons s ss ih =>
    obtain ⟨hs, hss⟩ := List.forall_mem_cons.mp h
    cases ss with
    | nil => rwa [join_singleton]
    | cons t ss =>
      rw [join_cons_cons]
      refine (hs.append ?_).append (ih hss)
      exact (Uncut.comma.mono hm).append (Uncut.plain (by decide : ' ' ∉ scanned) m)

mutual
theorem uncut_print (p : Pattern) (h : Documented p) : Uncut 0 (print p) := by
  cases p with
  | wildcard => exact .of_all (by decide) 0
  | enum name =>
    exact ((Uncut.plain (by decide : ':' ∉ scanned) 0).append ((Ordinary.name h).uncut 0)).append
      (Uncut.plain (by decide) 0)
  | stringLiteral text => exact Uncut.quoted h.1 0
  | numberLiteral n => exact (Ordinary.intText _).uncut 0
  | boolLiteral b => cases b <;> exact .of_all (by decide) 0
  | «variable» name =>
    exact (Uncut.plain (by decide : '$' ∉ scanned) 0).append ((Ordinary.name h).uncut 0)
  | pin name => exact (Uncut.plain (by decide : '^' ∉ scanned) 0).append ((Ordinary.name h).uncut 0)
  | list p => exact .bracketed (.inl rfl) (.inl rfl) (uncut_printList p h)
  | map fields =>
    exact .bracketed (.inr rfl) (.inr rfl)
      (uncut_join (Int.le_refl 1) fun s hs => (uncut_printEntries fields h s hs).mono (by decide))

theorem uncut_printList (p : ListPattern) (h : DocumentedList p) : Uncut 1 (printList p) := by
  cases p with
  | empty => exact .nil 1
  | headTail head tail =>
    exact (((uncut_print head h.1).mono (by decide)).append (.of_all (by decide) 1)).append
      ((uncut_print tail h.2).mono (by decide))
  | elements ps =>
    exact uncut_join (Int.le_refl 1) fun s hs =>
      (uncut_printElements ps h.2 s hs).mono (by decide)

theorem uncut_printElements (ps : List Pattern) (h : DocumentedElements ps) :
    ∀ s ∈ printElements ps, Uncut 0 s := by
  cases ps with
  | nil => simp [printElements]
  | cons p ps =>
    exact List.forall_mem_cons.mpr ⟨uncut_print p h.1, uncut_printElements ps h.2⟩

theorem uncut_printEntries (fields : List (Str × Pattern)) (h : DocumentedFields fields) :
    ∀ s ∈ printEntries fields, Uncut 0 s := by
  cases fields with
  | nil => simp [printEntries]
  | cons f fields =>
    obtain ⟨key, p⟩ := f
    refine List.forall_mem_cons.mpr ⟨?_, uncut_printEntries fields h.2.2⟩
    exact (((Ordinary.name h.1).uncut 0).append (.of_all (by decide) 0)).append
      (uncut_print p h.2.1)
end

structure Tight (s : Str) : Prop where
  head : ∃ c t, s = c :: t ∧ isWhitespace c = false
  last : ∃ t c, s = t ++ [c] ∧ isWhitespace c = false

namespace Tight

theorem ne_nil {s : Str} (h : Tight s) : s ≠ [] := by
  obtain ⟨c, t, rfl, -⟩ := h.head
  simp

theorem dropWhile_eq {s : Str} (h : Tight s) : s.dropWhile isWhitespace = s := by
  obtain ⟨c, t, rfl, hc⟩ := h.head
  exact List.dropWhile_cons_of_neg (by simp [hc])

theorem rdropWhile_eq {s : Str} (h : Tight s) : s.rdropWhile isWhitespace = s := by
  obtain ⟨t, c, rfl, hc⟩ := h.last
  exact List.rdropWhile_concat_neg _ _ _ (by simp [hc])

theorem trim_eq {s : Str} (h : Tight s) : trim s = s := by
  rw [trim, h.dropWhile_eq, h.rdropWhile_eq]

theorem trim_space_cons {s : Str} (h : Tight s) : trim (' ' :: s) = s := by
  rw [trim, List.dropWhile_cons_of_pos (by decide), h.dropWhile_eq, h.rdropWhile_eq]

theorem trim_append_space {s : Str} (h : Tight s) : trim (s ++ [' ']) = s := by
  have hdrop : (s ++ [' ']).dropWhile isWhitespace = s ++ [' '] := by
    obtain ⟨c, t, rfl, hc⟩ := h.head
    exact List.dropWhile_cons_of_neg (by simp [hc])
  rw [trim, hdrop, List.rdropWhile_concat_pos _ _ _ (by decide), h.rdropWhile_eq]

theorem append {s t : Str} (hs : Tight s) (m : Str) (ht : Tight t) : Tight (s ++ m ++ t) := by
  obtain ⟨c, s, rfl, hc⟩ := hs.head
  obtain ⟨t, d, rfl, hd⟩ := ht.last
  exact ⟨⟨c, s ++ m ++ (t ++ [d]), by simp, hc⟩, ⟨c :: s ++ m ++ t, d, by simp, hd⟩⟩

theorem enclosed {a b : Char} (ha : isWhitespace a = false) (hb : isWhitespace b = false)
    (m : Str) : Tight (a :: m ++ [b]) :=
  ⟨⟨a, m ++ [b], rfl, ha⟩, ⟨a :: m, b, rfl, hb⟩⟩

theorem of_ordinary {s : Str} (h : Ordinary s) (hne : s ≠ []) : Tight s := by
  constructor
  · obtain ⟨c, t, rfl⟩ := List.exists_cons_of_ne_nil hne
    exact ⟨c, t, rfl, h.not_isWhitespace c (by simp)⟩
  · obtain ⟨t, c, rfl⟩ := List.eq_nil_or_concat s |>.resolve_left hne
    exact ⟨t, c, by simp, h.not_isWhitespace c (by simp)⟩

theorem join {ss : List Str} (hne : ss ≠ []) (h : ∀ s ∈ ss, Tight s) :
    Tight (join ", ".toList ss) := by
  induction ss with
  | nil => exact absurd rfl hne
  | cons s ss ih =>
    obtain ⟨hs, hss⟩ := List.forall_mem_cons.mp h
    cases ss with
    | nil => rwa [join_singleton]
    | cons t ss =>
      rw [join_cons_cons]
      exact hs.append _ (ih (by simp) hss)

end Tight

theorem identifier_ne_nil {name : Str} (h : isIdentifier name) : name ≠ [] := by
  rintro rfl
  exact Bool.false_ne_true h

theorem intText_ne_nil (n : Int) : intText n ≠ [] := by
  unfold intText
  split_ifs
  · simp
  · exact Nat.toDigits_ne_nil

theorem tight_print {p : Pattern} (h : Documented p) : Tight (print p) := by
  cases p with
  | wildcard => exact ⟨⟨'*', [], rfl, rfl⟩, ⟨[], '*', rfl, rfl⟩⟩
  | enum name => exact .enclosed rfl rfl name
  | stringLiteral text => exact .enclosed rfl rfl text
  | numberLiteral n => exact .of_ordinary (.intText _) (intText_ne_nil _)
  | boolLiteral b =>
    cases b with
    | true => exact .of_ordinary (.name (by decide +kernel)) (by simp [print])
    | false => exact .of_ordinary (.name (by decide +kernel)) (by simp [print])
  | «variable» name => exact .of_ordinary (.cons (by decide) (.name h)) (by simp [print])
  | pin name => exact .of_ordinary (.cons (by decide) (.name h)) (by simp [print])
  | list p => exact .enclosed rfl rfl _
  | map fields => exact .enclosed rfl rfl _

theorem tight_printElements {ps : List Pattern} (h : DocumentedElements ps) :
    ∀ s ∈ printElements ps, Tight s := by
  induction ps with
  | nil => simp [printElements]
  | cons p ps ih => exact List.forall_mem_cons.mpr ⟨tight_print h.1, ih h.2⟩

theorem tight_printEntries {fields : List (Str × Pattern)} (h : DocumentedFields fields) :
    ∀ s ∈ printEntries fields, Tight s := by
  induction fields with
  | nil => simp [printEntries]
  | cons f fields ih =>
    obtain ⟨key, p⟩ := f
    refine List.forall_mem_cons.mpr ⟨?_, ih h.2.2⟩
    exact (Tight.of_ordinary (.name h.1) (identifier_ne_nil h.1)).append _ (tight_print h.2.1)

def Split.cut (st : Split) : Split := { st with parts := st.parts ++ [st.current], current := [] }

theorem Split.step_comma {st : Split} (hquote : st.quote = none) (hdepth : st.depth = 0) :
    st.step ',' ',' = .ok st.cut := by
  rw [Split.step, Split.quote_eq_none.mp hquote]
  simp [hdepth, Split.cut, Split.quote_eq_none.mp hquote]

theorem Split.read_join {s : Str} {ss : List Str} (h : ∀ t ∈ s :: ss, Uncut 0 t ∧ t ≠ [])
    {st st' : Split} (hquote : st.quote = none) (hdepth : st.depth = 0)
    (hread : Split.read ',' st (join ", ".toList (s :: ss)) = .ok st') :
    st'.finish = st.parts ++ (st.current ++ s) :: ss.map (' ' :: ·) := by
  have hzero : InI32 st.depth ∧ (0 : Int) ≤ st.depth := by rw [hdepth]; decide
  induction ss generalizing s st with
  | nil =>
    obtain ⟨huncut, hne⟩ := h s (by simp)
    rw [join_singleton] at hread
    obtain ⟨-, -, hparts, hcurrent⟩ := huncut st st' hquote hzero.1 hzero.2 hread
    simp [Split.finish, hparts, hcurrent, hne]
  | cons t ss ih =>
    obtain ⟨⟨huncut, -⟩, hss⟩ := List.forall_mem_cons.mp h
    rw [join_cons_cons, List.append_assoc, Split.read_append] at hread
    obtain ⟨st₁, hs, hread⟩ := bind_eq_ok.mp hread
    obtain ⟨hquote₁, hdepth₁, hparts₁, hcurrent₁⟩ := huncut st st₁ hquote hzero.1 hzero.2 hs
    have hsep : ", ".toList ++ join ", ".toList (t :: ss) =
        ',' :: ([' '] ++ join ", ".toList (t :: ss)) := rfl
    rw [hsep, Split.read, Split.step_comma hquote₁ (hdepth₁.trans hdepth), ok_bind,
      Split.read_append] at hread
    obtain ⟨st₂, hspace, hread⟩ := bind_eq_ok.mp hread
    rw [← hdepth₁] at hzero
    obtain ⟨hquote₂, hdepth₂, hparts₂, hcurrent₂⟩ :=
      Uncut.plain (by decide : ' ' ∉ scanned) 0 st₁.cut st₂ hquote₁ hzero.1 hzero.2 hspace
    have hdepth₃ : st₂.depth = 0 := hdepth₂.trans (hdepth₁.trans hdepth)
    rw [ih hss hquote₂ hdepth₃ hread (by rw [hdepth₃]; decide)]
    simp [hparts₂, hcurrent₂, Split.cut, hparts₁, hcurrent₁]

theorem splitTopLevel_join {ss parts : List Str} (h : ∀ t ∈ ss, Uncut 0 t ∧ Tight t)
    (hsplit : splitTopLevel (join ", ".toList ss) ',' = .ok parts) : parts.map trim = ss := by
  obtain ⟨st, hread, hparts⟩ := bind_eq_ok.mp hsplit
  obtain rfl := Res.ok.inj hparts
  cases ss with
  | nil =>
    obtain rfl := Res.ok.inj hread
    rfl
  | cons s ss =>
    rw [Split.read_join (fun t ht => ⟨(h t ht).1, (h t ht).2.ne_nil⟩) rfl rfl hread]
    obtain ⟨⟨-, hs⟩, hss⟩ := List.forall_mem_cons.mp h
    simp only [Split.start, List.nil_append, List.map_cons, List.map_map, hs.trim_eq,
      List.cons.injEq, true_and]
    refine (List.map_congr_left fun t ht => ?_).trans (List.map_id ss)
    exact (hss t ht).2.trim_space_cons

end Luaml.Pattern
