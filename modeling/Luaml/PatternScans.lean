import Luaml.PatternRoundTrip
import Mathlib.Algebra.BigOperators.Group.List.Basic

namespace Luaml.Pattern

open Rust Str

def marks : Str := ['|', '[', ']', '{', '}']

/-- What a scan says of a text, from a depth on that brackets change. It may stop at a pipe at
depth `0`, and strings without pipes and brackets make no difference to it. -/
structure Scans (F : Int → Str → Prop) : Prop where
  step {d : Int} {c : Char} {t : Str} : InI32 (d + rise c) → ¬(c = '|' ∧ d = 0) →
    ¬(c = '"' ∨ c = '\'') → (F d (c :: t) ↔ F (d + rise c) t)
  quoted {d : Int} {text : Str} : InI32 d → '"' ∉ text → (∀ c ∈ text, c ∉ marks) →
    ∀ t, F d ('"' :: text ++ '"' :: t) ↔ F d t

theorem rise_of_not_mem {c : Char} (h : c ∉ marks) : rise c = 0 := by
  simp only [marks, List.mem_cons, List.not_mem_nil, or_false, not_or] at h
  simp [rise, h]

theorem scans_pipeFree : Scans PipeFree where
  step hin hpipe _ := by rw [PipeFree, and_iff_right hpipe, and_iff_right hin]
  quoted {d text} hin _ htext t := by
    have hplain : ∀ s : Str, (∀ c ∈ s, c ∉ marks) → (PipeFree d (s ++ t) ↔ PipeFree d t) := by
      intro s hs
      induction s with
      | nil => rfl
      | cons c s ih =>
        obtain ⟨hc, hs⟩ := List.forall_mem_cons.mp hs
        have hpipe : c ≠ '|' := fun heq => hc (heq ▸ by decide)
        rw [List.cons_append, PipeFree, rise_of_not_mem hc, Int.add_zero, ih hs]
        simp [hpipe, hin]
    have hmarks : ∀ c ∈ '"' :: text ++ ['"'], c ∉ marks := by
      simp only [List.cons_append, List.forall_mem_cons, List.forall_mem_append]
      exact ⟨by decide, htext, by decide, by simp⟩
    simpa using hplain _ hmarks

theorem scans_nestsUnquoted : Scans (NestsUnquoted none) where
  step {d c t} hin _ hquote := by
    have hrise : unquotedRise none c = rise c := rfl
    have hafter : quoteAfter none c = none := if_neg hquote
    rw [NestsUnquoted, hrise, hafter, and_iff_right hin]
  quoted {d text} hin hquote htext t := by
    clear htext
    have hinside : NestsUnquoted (some '"') d (text ++ '"' :: t) ↔ NestsUnquoted none d t := by
      induction text with
      | nil => simp [NestsUnquoted, unquotedRise, quoteAfter, hin]
      | cons c text ih =>
        obtain ⟨hc, htext⟩ := not_or.mp (mt List.mem_cons.mpr hquote)
        have hstay : quoteAfter (some '"') c = some '"' := if_neg (Ne.symm hc)
        rw [List.cons_append, NestsUnquoted, hstay]
        simp only [unquotedRise, Int.add_zero]
        rw [and_iff_right hin, ih htext]
    have hopen : quoteAfter none '"' = some '"' := rfl
    have hrise : unquotedRise none '"' = 0 := rfl
    rw [List.cons_append, NestsUnquoted, hopen, hrise, Int.add_zero, hinside, and_iff_right hin]

theorem scans_totalRise : Scans fun d s => d + totalRise s = 0 where
  step _ _ _ := by simp [totalRise, Int.add_assoc]
  quoted {d text} _ _ htext t := by
    have hzero : (text.map rise).sum = 0 :=
      List.sum_eq_zero (List.forall_mem_map.mpr fun c hc => rise_of_not_mem (htext c hc))
    have hquote : rise '"' = 0 := rfl
    simp [totalRise, hzero, hquote]

def Skips (F : Int → Str → Prop) (d : Int) (s : Str) : Prop := ∀ t, F d (s ++ t) ↔ F d t

theorem Skips.nil (F : Int → Str → Prop) (d : Int) : Skips F d [] := fun _ => Iff.rfl

theorem Skips.append {F : Int → Str → Prop} {d : Int} {s t : Str} (hs : Skips F d s)
    (ht : Skips F d t) : Skips F d (s ++ t) := by
  intro u
  rw [List.append_assoc, hs, ht]

namespace Scans

variable {F : Int → Str → Prop} (hF : Scans F) {d : Int}
include hF

theorem skips_char (hd : InI32 d) {c : Char} (hc : c ∉ marks) (hquote : ¬(c = '"' ∨ c = '\'')) :
    Skips F d [c] := by
  intro t
  have hpipe : ¬(c = '|' ∧ d = 0) := fun h => hc (h.1 ▸ by decide)
  have hrise := rise_of_not_mem hc
  have hstep := hF.step (t := t) (by rwa [hrise, Int.add_zero]) hpipe hquote
  rwa [hrise, Int.add_zero] at hstep

theorem skips_of_all (hd : InI32 d) {s : Str}
    (h : s.all fun c => decide (c ∉ '"' :: '\'' :: marks)) :
    Skips F d s := by
  induction s with
  | nil => exact .nil F d
  | cons c s ih =>
    obtain ⟨hc, hs⟩ := Bool.and_eq_true_iff.mp h
    simp only [decide_eq_true_eq, List.mem_cons, not_or] at hc
    exact (hF.skips_char hd hc.2.2 (not_or.mpr ⟨hc.1, hc.2.1⟩)).append (ih hs)

theorem skips_ordinary (hd : InI32 d) {s : Str} (h : Ordinary s) : Skips F d s := by
  have hspecial : ('"' :: '\'' :: marks).all fun c => decide (c ∈ special) := by decide
  refine hF.skips_of_all hd (List.all_eq_true.mpr fun c hc => decide_eq_true fun hmem => ?_)
  exact h c hc (of_decide_eq_true (List.all_eq_true.mp hspecial c hmem))

theorem skips_pipe (hd : InI32 d) (hne : d ≠ 0) : Skips F d " | ".toList := by
  have hspace : Skips F d [' '] := hF.skips_of_all hd (by decide)
  have hpipe : Skips F d ['|'] := by
    intro t
    have hrise : rise '|' = 0 := rfl
    have hstep := hF.step (t := t) (by rwa [hrise, Int.add_zero]) (fun h => hne h.2) (by decide)
    rwa [hrise, Int.add_zero] at hstep
  exact (hspace.append hpipe).append hspace

theorem skips_bracketed {a b : Char} (ha : a = '[' ∨ a = '{') (hb : b = ']' ∨ b = '}')
    (hd : InI32 d) (hd' : InI32 (d + 1)) {s : Str} (h : Skips F (d + 1) s) :
    Skips F d (a :: s ++ [b]) := by
  intro t
  have hrise : rise a = 1 ∧ rise b = -1 := by
    rcases ha with rfl | rfl <;> rcases hb with rfl | rfl <;> exact ⟨rfl, rfl⟩
  have hopen := hF.step (t := s ++ b :: t) (hrise.1 ▸ hd')
    (by rcases ha with rfl | rfl <;> simp) (by rcases ha with rfl | rfl <;> decide)
  have hclose := hF.step (d := d + 1) (t := t) (by rwa [hrise.2, Int.add_neg_cancel_right])
    (by rcases hb with rfl | rfl <;> simp) (by rcases hb with rfl | rfl <;> decide)
  rw [hrise.1] at hopen
  rw [hrise.2, Int.add_neg_cancel_right] at hclose
  have hsplit : a :: s ++ [b] ++ t = a :: (s ++ b :: t) := by simp
  rw [hsplit, hopen, h, hclose]

theorem skips_join (hd : InI32 d) {ss : List Str} (h : ∀ s ∈ ss, Skips F d s) :
    Skips F d (join ", ".toList ss) := by
  induction ss with
  | nil => exact .nil F d
  | cons s ss ih =>
    obtain ⟨hs, hss⟩ := List.forall_mem_cons.mp h
    cases ss with
    | nil => rwa [join_singleton]
    | cons t ss =>
      rw [join_cons_cons]
      exact (hs.append (hF.skips_of_all hd (by decide))).append (ih hss)

end Scans

mutual
/-- No string in the pattern has a pipe or a bracket in it. -/
def Plain : Pattern → Prop
  | .stringLiteral text => ∀ c ∈ text, c ∉ marks
  | .list p => PlainList p
  | .map fields => PlainFields fields
  | .wildcard | .enum _ | .numberLiteral _ | .boolLiteral _ | .variable _ | .pin _ => True

def PlainList : ListPattern → Prop
  | .empty => True
  | .headTail head tail => Plain head ∧ Plain tail
  | .elements ps => PlainElements ps

def PlainElements : List Pattern → Prop
  | [] => True
  | p :: ps => Plain p ∧ PlainElements ps

def PlainFields : List (Str × Pattern) → Prop
  | [] => True
  | (_, p) :: fields => Plain p ∧ PlainFields fields
end

mutual
def nesting : Pattern → Nat
  | .list p => nestingList p + 1
  | .map fields => nestingFields fields + 1
  | .wildcard | .enum _ | .stringLiteral _ | .numberLiteral _ | .boolLiteral _ | .variable _
  | .pin _ => 0

def nestingList : ListPattern → Nat
  | .empty => 0
  | .headTail head tail => max (nesting head) (nesting tail)
  | .elements ps => nestingElements ps

def nestingElements : List Pattern → Nat
  | [] => 0
  | p :: ps => max (nesting p) (nestingElements ps)

def nestingFields : List (Str × Pattern) → Nat
  | [] => 0
  | (_, p) :: fields => max (nesting p) (nestingFields fields)
end

def Room (d : Int) (n : Nat) : Prop := 0 ≤ d ∧ d + n < 2 ^ 31

theorem Room.inI32 {d : Int} {n : Nat} (h : Room d n) : InI32 d := by
  unfold Room at h
  unfold InI32
  omega

theorem Room.mono {d : Int} {m n : Nat} (h : Room d n) (hmn : m ≤ n) : Room d m := by
  unfold Room at h ⊢
  omega

theorem Room.succ {d : Int} {n : Nat} (h : Room d (n + 1)) : Room (d + 1) n := by
  unfold Room at h ⊢
  omega

mutual
theorem skips_print {F : Int → Str → Prop} (hF : Scans F) (p : Pattern) (h : Documented p)
    (hplain : Plain p) {d : Int} (hroom : Room d (nesting p)) : Skips F d (print p) := by
  have hd := hroom.inI32
  cases p with
  | wildcard => exact hF.skips_of_all hd (by decide)
  | enum name =>
    exact ((hF.skips_of_all hd (by decide : [':'].all _)).append
      (hF.skips_ordinary hd (.name h))).append (hF.skips_of_all hd (by decide))
  | stringLiteral text =>
    intro t
    have hquoted := hF.quoted hd h.1 hplain t
    simpa [print] using hquoted
  | numberLiteral n => exact hF.skips_ordinary hd (.intText _)
  | boolLiteral b => cases b <;> exact hF.skips_of_all hd (by decide)
  | «variable» name => exact hF.skips_ordinary hd (.cons (by decide) (.name h))
  | pin name => exact hF.skips_ordinary hd (.cons (by decide) (.name h))
  | list p =>
    exact hF.skips_bracketed (.inl rfl) (.inl rfl) hd hroom.succ.inI32
      (skips_printList hF p h hplain hroom.succ (by have := hroom.1; omega))
  | map fields =>
    exact hF.skips_bracketed (.inr rfl) (.inr rfl) hd hroom.succ.inI32
      (hF.skips_join hroom.succ.inI32 (skips_printEntries hF fields h hplain hroom.succ))

theorem skips_printList {F : Int → Str → Prop} (hF : Scans F) (p : ListPattern)
    (h : DocumentedList p) (hplain : PlainList p) {d : Int} (hroom : Room d (nestingList p))
    (hne : d ≠ 0) : Skips F d (printList p) := by
  cases p with
  | empty => exact .nil F d
  | headTail head tail =>
    have hhead := skips_print hF head h.1 hplain.1 (hroom.mono (Nat.le_max_left _ _))
    have htail := skips_print hF tail h.2 hplain.2 (hroom.mono (Nat.le_max_right _ _))
    exact (hhead.append (hF.skips_pipe hroom.inI32 hne)).append htail
  | elements ps => exact hF.skips_join hroom.inI32 (skips_printElements hF ps h.2 hplain hroom)

theorem skips_printElements {F : Int → Str → Prop} (hF : Scans F) (ps : List Pattern)
    (h : DocumentedElements ps) (hplain : PlainElements ps) {d : Int}
    (hroom : Room d (nestingElements ps)) :
    ∀ s ∈ printElements ps, Skips F d s := by
  cases ps with
  | nil => simp [printElements]
  | cons p ps =>
    exact List.forall_mem_cons.mpr
      ⟨skips_print hF p h.1 hplain.1 (hroom.mono (Nat.le_max_left _ _)),
        skips_printElements hF ps h.2 hplain.2 (hroom.mono (Nat.le_max_right _ _))⟩

theorem skips_printEntries {F : Int → Str → Prop} (hF : Scans F) (fields : List (Str × Pattern))
    (h : DocumentedFields fields) (hplain : PlainFields fields) {d : Int}
    (hroom : Room d (nestingFields fields)) :
    ∀ s ∈ printEntries fields, Skips F d s := by
  cases fields with
  | nil => simp [printEntries]
  | cons f fields =>
    obtain ⟨key, p⟩ := f
    have hkey := hF.skips_ordinary hroom.inI32 (.name h.1)
    have hcolon : Skips F d ": ".toList := hF.skips_of_all hroom.inI32 (by decide)
    have hp := skips_print hF p h.2.1 hplain.1 (hroom.mono (Nat.le_max_left _ _))
    exact List.forall_mem_cons.mpr ⟨(hkey.append hcolon).append hp,
      skips_printEntries hF fields h.2.2 hplain.2 (hroom.mono (Nat.le_max_right _ _))⟩
end

theorem Skips.holds {F : Int → Str → Prop} {d : Int} {s : Str} (h : Skips F d s) (hnil : F d []) :
    F d s := by
  have := (h []).mpr hnil
  rwa [List.append_nil] at this

mutual
theorem separable_of_plain (p : Pattern) (h : Documented p) (hplain : Plain p)
    (hroom : Room 0 (nesting p)) : Separable p := by
  cases p with
  | list p => exact separableList_of_plain p h hplain (hroom.mono (Nat.le_succ _))
  | map fields =>
    have hfields : Room 0 (nestingFields fields) := hroom.mono (Nat.le_succ _)
    exact ⟨(scans_nestsUnquoted.skips_join hfields.inI32
      (skips_printEntries scans_nestsUnquoted fields h hplain hfields)).holds trivial,
        separableFields_of_plain fields h hplain hfields⟩
  | _ => trivial

theorem separableList_of_plain (p : ListPattern) (h : DocumentedList p) (hplain : PlainList p)
    (hroom : Room 0 (nestingList p)) : SeparableList p := by
  cases p with
  | empty => trivial
  | headTail head tail =>
    have hhead : Room 0 (nesting head) := hroom.mono (Nat.le_max_left _ _)
    have htail : Room 0 (nesting tail) := hroom.mono (Nat.le_max_right _ _)
    have htotal := (skips_print scans_totalRise head h.1 hplain.1 hhead).holds rfl
    rw [Int.zero_add] at htotal
    exact ⟨⟨(skips_print scans_pipeFree head h.1 hplain.1 hhead).holds trivial, htotal⟩,
      separable_of_plain head h.1 hplain.1 hhead, separable_of_plain tail h.2 hplain.2 htail⟩
  | elements ps =>
    refine ⟨⟨?_, ?_⟩, separableElements_of_plain ps h.2 hplain hroom⟩
    · exact (scans_pipeFree.skips_join hroom.inI32
        (skips_printElements scans_pipeFree ps h.2 hplain hroom)).holds trivial
    · exact (scans_nestsUnquoted.skips_join hroom.inI32
        (skips_printElements scans_nestsUnquoted ps h.2 hplain hroom)).holds trivial

theorem separableElements_of_plain (ps : List Pattern) (h : DocumentedElements ps)
    (hplain : PlainElements ps) (hroom : Room 0 (nestingElements ps)) : SeparableElements ps := by
  cases ps with
  | nil => trivial
  | cons p ps =>
    exact ⟨separable_of_plain p h.1 hplain.1 (hroom.mono (Nat.le_max_left _ _)),
      separableElements_of_plain ps h.2 hplain.2 (hroom.mono (Nat.le_max_right _ _))⟩

theorem separableFields_of_plain (fields : List (Str × Pattern)) (h : DocumentedFields fields)
    (hplain : PlainFields fields) (hroom : Room 0 (nestingFields fields)) :
    SeparableFields fields := by
  cases fields with
  | nil => trivial
  | cons f fields =>
    obtain ⟨key, p⟩ := f
    exact ⟨separable_of_plain p h.2.1 hplain.1 (hroom.mono (Nat.le_max_left _ _)),
      separableFields_of_plain fields h.2.2 hplain.2 (hroom.mono (Nat.le_max_right _ _))⟩
end

/-- A pattern that is printed is read back exactly when its parts can be told apart: always, if no
string of it has a pipe or a bracket in it and its nesting can be counted. -/
theorem print_parses_iff (p : Pattern) (h : Documented p) :
    (parsePatternValue (print p) = .ok p ↔ Separable p) ∧
      (Plain p → Room 0 (nesting p) → Separable p) :=
  ⟨parse_print_iff p h, separable_of_plain p h⟩

def tagged : Pattern :=
  .list (.headTail (.stringLiteral "tag".toList) (.variable "rest".toList))

theorem parse_print_tagged : parsePatternValue (print tagged) = .ok tagged := by
  have hrest : isIdentifier "rest".toList := by decide +kernel
  have hfree : PipeFree 0 (print (.stringLiteral "tag".toList)) := by
    simp [print, PipeFree, rise, InI32]
  exact (print_parses_iff tagged ⟨⟨by decide, by decide, by decide⟩, hrest⟩).1.mpr
    ⟨⟨hfree, rfl⟩, trivial, trivial⟩

end Luaml.Pattern
