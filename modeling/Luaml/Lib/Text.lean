import Luaml.Lib.Res
import Mathlib.Data.List.DropRight
import Mathlib.Data.List.Infix

universe u v

namespace Rust

abbrev Str := List Char

namespace Str

def byteLen : Str → Nat
  | [] => 0
  | c :: s => c.utf8Size + byteLen s

@[simp] theorem byteLen_nil : byteLen [] = 0 := rfl
@[simp] theorem byteLen_cons (c : Char) (s : Str) : byteLen (c :: s) = c.utf8Size + byteLen s := rfl

@[simp] theorem byteLen_append (s t : Str) : byteLen (s ++ t) = byteLen s + byteLen t := by
  induction s with
  | nil => simp
  | cons c s ih => simp [ih, Nat.add_assoc]

theorem byteLen_le_of_isInfix {s t : Str} (h : s <:+: t) : byteLen s ≤ byteLen t := by
  obtain ⟨p, q, rfl⟩ := h
  simp only [byteLen_append]
  omega

def splitAtByte : Str → Nat → Option (Str × Str)
  | s, 0 => some ([], s)
  | [], _ + 1 => none
  | c :: s, n + 1 =>
    if c.utf8Size ≤ n + 1 then
      (splitAtByte s (n + 1 - c.utf8Size)).map fun (p, q) => (c :: p, q)
    else none

theorem splitAtByte_append (s t : Str) : splitAtByte (s ++ t) (byteLen s) = some (s, t) := by
  induction s with
  | nil => cases t <;> rfl
  | cons c s ih =>
    obtain ⟨n, hn⟩ : ∃ n, c.utf8Size + byteLen s = n + 1 :=
      ⟨c.utf8Size + byteLen s - 1, by have := c.utf8Size_pos; omega⟩
    have hle : c.utf8Size ≤ n + 1 := by omega
    have hsub : n + 1 - c.utf8Size = byteLen s := by omega
    simp only [List.cons_append, byteLen_cons, hn, splitAtByte, if_pos hle, hsub, ih]
    rfl

/-- `&s[lo..hi]` -/
def slice {ε : Type u} (s : Str) (lo hi : Nat) : Res ε Str :=
  if lo ≤ hi then
    match splitAtByte s hi with
    | none => .panic .slice
    | some (p, _) =>
      match splitAtByte p lo with
      | none => .panic .slice
      | some (_, m) => .ok m
  else .panic .slice

theorem slice_append {ε : Type u} (p m q : Str) :
    (slice (p ++ m ++ q) (byteLen p) (byteLen p + byteLen m) : Res ε Str) = .ok m := by
  have hhi := splitAtByte_append (p ++ m) q
  have hlo := splitAtByte_append p m
  rw [byteLen_append] at hhi
  simp only [slice, hhi, hlo, if_pos (Nat.le_add_right _ _)]

def sliceTo {ε : Type u} (s : Str) (hi : Nat) : Res ε Str := slice s 0 hi

def sliceFrom {ε : Type u} (s : Str) (lo : Nat) : Res ε Str := slice s lo (byteLen s)

theorem sliceTo_append {ε : Type u} (p q : Str) :
    (sliceTo (p ++ q) (byteLen p) : Res ε Str) = .ok p := by
  simpa [sliceTo] using slice_append (ε := ε) [] p q

theorem sliceFrom_append {ε : Type u} (p q : Str) :
    (sliceFrom (p ++ q) (byteLen p) : Res ε Str) = .ok q := by
  simpa [sliceFrom] using slice_append (ε := ε) p q []

def startsWith (s : Str) (c : Char) : Bool := s.head? == some c

def endsWith (s : Str) (c : Char) : Bool := s.getLast? == some c

@[simp] theorem startsWith_cons (c d : Char) (s : Str) : startsWith (c :: s) d = (c == d) := by
  simp [startsWith]

@[simp] theorem endsWith_concat (c d : Char) (s : Str) : endsWith (s ++ [c]) d = (c == d) := by
  simp [endsWith]

def stripPrefix (c : Char) : Str → Option Str
  | [] => none
  | d :: s => if d = c then some s else none

theorem stripPrefix_eq_none {c : Char} {s : Str} :
    stripPrefix c s = none ↔ startsWith s c = false := by
  cases s with
  | nil => simp [stripPrefix, startsWith]
  | cons d s => simp [stripPrefix]

theorem eq_cons_of_stripPrefix {c : Char} {s t : Str} (h : stripPrefix c s = some t) :
    s = c :: t := by
  cases s with
  | nil => simp [stripPrefix] at h
  | cons d s =>
    rw [stripPrefix] at h
    split_ifs at h with hd
    rw [hd, Option.some.inj h]

def find (c : Char) : Str → Option Nat
  | [] => none
  | d :: s => if d = c then some 0 else (find c s).map (d.utf8Size + ·)

def splitOnce (c : Char) : Str → Option (Str × Str)
  | [] => none
  | d :: s => if d = c then some ([], s) else (splitOnce c s).map fun (p, q) => (d :: p, q)

theorem splitOnce_eq_some {c : Char} {s p q : Str} (h : splitOnce c s = some (p, q)) :
    s = p ++ c :: q ∧ find c s = some (byteLen p) := by
  induction s generalizing p q with
  | nil => simp [splitOnce] at h
  | cons d s ih =>
    by_cases hd : d = c
    · simp only [splitOnce, if_pos hd, Option.some.injEq, Prod.mk.injEq] at h
      obtain ⟨rfl, rfl⟩ := h
      simp [find, hd]
    · simp only [splitOnce, if_neg hd, Option.map_eq_some_iff] at h
      obtain ⟨⟨p', q'⟩, hs, heq⟩ := h
      obtain ⟨rfl, rfl⟩ := Prod.mk.inj heq
      obtain ⟨rfl, hf⟩ := ih hs
      exact ⟨rfl, by simp [find, hd, hf]⟩

theorem splitOnce_append {c : Char} {s p q : Str} (h : splitOnce c s = some (p, q)) (t : Str) :
    splitOnce c (s ++ t) = some (p, q ++ t) := by
  induction s generalizing p q with
  | nil => simp [splitOnce] at h
  | cons d s ih =>
    by_cases hd : d = c
    · simp only [splitOnce, if_pos hd, Option.some.injEq, Prod.mk.injEq] at h
      obtain ⟨rfl, rfl⟩ := h
      simp [splitOnce, hd]
    · simp only [splitOnce, if_neg hd, Option.map_eq_some_iff] at h
      obtain ⟨⟨p', q'⟩, hs, heq⟩ := h
      obtain ⟨rfl, rfl⟩ := Prod.mk.inj heq
      simp [splitOnce, hd, ih hs]

theorem splitOnce_of_not_mem {c : Char} {s : Str} (h : c ∉ s) (t : Str) :
    splitOnce c (s ++ c :: t) = some (s, t) := by
  induction s with
  | nil => simp [splitOnce]
  | cons d s ih =>
    obtain ⟨hd, hs⟩ := not_or.mp (mt List.mem_cons.mpr h)
    simp [splitOnce, Ne.symm hd, ih hs]

theorem slices_around {ε : Type u} {s p q : Str} {c : Char} (h : s = p ++ c :: q)
    (hc : c.utf8Size = 1) :
    (sliceTo s (byteLen p) : Res ε Str) = .ok p ∧
      (sliceFrom s (byteLen p + 1) : Res ε Str) = .ok q := by
  subst h
  refine ⟨sliceTo_append p (c :: q), ?_⟩
  have h := sliceFrom_append (ε := ε) (p ++ [c]) q
  rwa [List.append_assoc, List.singleton_append, byteLen_append, byteLen_cons, hc] at h

theorem splitOnce_eq_none {c : Char} {s : Str} (h : splitOnce c s = none) : find c s = none := by
  induction s with
  | nil => rfl
  | cons d s ih =>
    by_cases hd : d = c
    · simp [splitOnce, hd] at h
    · simp only [splitOnce, if_neg hd, Option.map_eq_none_iff] at h
      simp [find, hd, ih h]

theorem eq_cons_of_startsWith {s : Str} {c : Char} (h : startsWith s c) : ∃ t, s = c :: t := by
  cases s with
  | nil => simp [startsWith] at h
  | cons d t =>
    simp only [startsWith, List.head?_cons, beq_iff_eq, Option.some.injEq] at h
    exact ⟨t, by rw [h]⟩

theorem eq_concat_of_endsWith {s : Str} {c : Char} (h : endsWith s c) : ∃ t, s = t ++ [c] := by
  simp only [endsWith, beq_iff_eq] at h
  exact List.getLast?_eq_some_iff.mp h

theorem eq_bracketed {s : Str} {a b : Char} (ha : startsWith s a) (hb : endsWith s b)
    (hs : s ≠ [a]) : ∃ m, s = a :: m ++ [b] := by
  obtain ⟨t, rfl⟩ := eq_cons_of_startsWith ha
  obtain ⟨u, hu⟩ := eq_concat_of_endsWith hb
  cases u with
  | nil =>
    obtain ⟨rfl, rfl⟩ := List.cons.inj hu
    exact absurd rfl hs
  | cons d u =>
    obtain ⟨rfl, rfl⟩ := List.cons.inj hu
    exact ⟨u, rfl⟩

theorem slice_bracketed {ε : Type u} {a b : Char} (ha : a.utf8Size = 1) (hb : b.utf8Size = 1)
    (m : Str) :
    (slice (a :: m ++ [b]) 1 (byteLen (a :: m ++ [b]) - 1) : Res ε Str) = .ok m := by
  have h := slice_append (ε := ε) [a] m [b]
  have hlen : byteLen (a :: m ++ [b]) - 1 = 1 + byteLen m := by
    simp only [byteLen_append, byteLen_cons, byteLen_nil, ha, hb]
    omega
  rw [hlen]
  simpa [ha] using h

/-- The Unicode `White_Space` property. -/
def isWhitespace (c : Char) : Bool :=
  let n := c.toNat
  (0x9 ≤ n && n ≤ 0xd) || n == 0x20 || n == 0x85 || n == 0xa0 || n == 0x1680
    || (0x2000 ≤ n && n ≤ 0x200a) || n == 0x2028 || n == 0x2029 || n == 0x202f
    || n == 0x205f || n == 0x3000

def trim (s : Str) : Str := (s.dropWhile isWhitespace).rdropWhile isWhitespace

theorem trim_isInfix (s : Str) : trim s <:+: s :=
  (List.rdropWhile_prefix _ _).isInfix.trans (List.dropWhile_suffix _).isInfix

theorem byteLen_trim_le (s : Str) : byteLen (trim s) ≤ byteLen s :=
  byteLen_le_of_isInfix (trim_isInfix s)

def consHead (c : Char) : List Str → List Str
  | [] => [[c]]
  | l :: ls => (c :: l) :: ls

/-- `str::lines`: the parts ended by `\n` or `\r\n`, and a last part that has no end of line. -/
def lines : Str → List Str
  | [] => []
  | '\n' :: s => [] :: lines s
  | '\r' :: '\n' :: s => [] :: lines s
  | c :: s => consHead c (lines s)

theorem lines_cons {c : Char} (h : c ≠ '\n') {s : Str} (hcr : c = '\r' → s.head? ≠ some '\n') :
    lines (c :: s) = consHead c (lines s) := by
  rw [lines]
  · exact h
  · rintro t rfl rfl
    exact hcr rfl rfl

theorem lines_lf {l : Str} (h : '\n' ∉ l) (hcr : l.getLast? ≠ some '\r') (s : Str) :
    lines (l ++ '\n' :: s) = l :: lines s := by
  induction l with
  | nil => rw [List.nil_append, lines]
  | cons c l ih =>
    obtain ⟨hc, hl⟩ := not_or.mp (fun hor => h (List.mem_cons.mpr hor))
    rw [List.cons_append, lines_cons (Ne.symm hc), ih hl]
    · rfl
    · cases l <;> simp_all
    · cases l with
      | nil => exact fun heq => absurd (by rw [heq]; rfl) hcr
      | cons d l => simp [show d ≠ '\n' from fun heq => hl (by simp [heq])]

theorem lines_crlf {l : Str} (h : '\n' ∉ l) (s : Str) :
    lines (l ++ '\r' :: '\n' :: s) = l :: lines s := by
  induction l with
  | nil => rw [List.nil_append, lines]
  | cons c l ih =>
    obtain ⟨hc, hl⟩ := not_or.mp (fun hor => h (List.mem_cons.mpr hor))
    rw [List.cons_append, lines_cons (Ne.symm hc), ih hl]
    · rfl
    · cases l with
      | nil => simp
      | cons d l => simp [show d ≠ '\n' from fun heq => hl (by simp [heq])]

theorem lines_last {l : Str} (h : '\n' ∉ l) (hne : l ≠ []) : lines l = [l] := by
  induction l with
  | nil => exact absurd rfl hne
  | cons c l ih =>
    obtain ⟨hc, hl⟩ := not_or.mp (fun hor => h (List.mem_cons.mpr hor))
    rw [lines_cons (Ne.symm hc)]
    · cases l with
      | nil => rfl
      | cons d l => rw [ih hl (by simp)]; rfl
    · cases l with
      | nil => simp
      | cons d l => simp [show d ≠ '\n' from fun heq => hl (by simp [heq])]

def consFirst (c : Char) : List (Str × Str) → List (Str × Str)
  | [] => [([c], [])]
  | (l, e) :: ls => (c :: l, e) :: ls

/-- The parts that `lines` makes of a text, each with the end of line that `lines` drops. -/
def rawLines : Str → List (Str × Str)
  | [] => []
  | '\n' :: s => ([], ['\n']) :: rawLines s
  | '\r' :: '\n' :: s => ([], ['\r', '\n']) :: rawLines s
  | c :: s => consFirst c (rawLines s)

def unlines (ls : List (Str × Str)) : Str := ls.flatMap fun (l, e) => l ++ e

/-- Lines that are read as they stand: no `\n` in a line, no `\r` before a bare `\n`, and an end
for each line but the last. -/
def Ended : List (Str × Str) → Prop
  | [] => True
  | (l, e) :: ls => '\n' ∉ l ∧ Ended ls ∧
      (e = ['\n'] ∧ l.getLast? ≠ some '\r' ∨ e = ['\r', '\n'] ∨ e = [] ∧ l ≠ [] ∧ ls = [])

theorem Ended.sublist {ls ls' : List (Str × Str)} (h : ls'.Sublist ls) (hended : Ended ls) :
    Ended ls' := by
  induction h with
  | slnil => trivial
  | cons le _ ih => exact ih hended.2.1
  | cons_cons le hsub ih =>
    obtain ⟨hlf, hls, hend⟩ := hended
    refine ⟨hlf, ih hls, ?_⟩
    rcases hend with hlf' | hcrlf | ⟨he, hne, rfl⟩
    · exact .inl hlf'
    · exact .inr (.inl hcrlf)
    · exact .inr (.inr ⟨he, hne, List.sublist_nil.mp hsub⟩)

theorem lines_unlines {ls : List (Str × Str)} (h : Ended ls) :
    lines (unlines ls) = ls.map Prod.fst := by
  induction ls with
  | nil => rfl
  | cons le ls ih =>
    obtain ⟨l, e⟩ := le
    obtain ⟨hl, hls, ⟨rfl, hcr⟩ | rfl | ⟨rfl, hne, rfl⟩⟩ := h
    · have hline := lines_lf hl hcr (unlines ls)
      rw [ih hls] at hline
      simpa [unlines] using hline
    · have hline := lines_crlf hl (unlines ls)
      rw [ih hls] at hline
      simpa [unlines] using hline
    · simpa [unlines] using lines_last hl hne

theorem Ended.consFirst {c : Char} {ls : List (Str × Str)} (h : Ended ls) (hc : c ≠ '\n')
    (hcr : c = '\r' → ∀ e ls', ls ≠ ([], '\n' :: e) :: ls') : Ended (consFirst c ls) := by
  cases ls with
  | nil => simp [Str.consFirst, Ended, Ne.symm hc]
  | cons le ls =>
    obtain ⟨l, e⟩ := le
    obtain ⟨hl, hls, he⟩ := h
    refine ⟨by simp [Ne.symm hc, hl], hls, ?_⟩
    rcases he with ⟨rfl, hend⟩ | rfl | ⟨rfl, hne, rfl⟩
    · refine .inl ⟨rfl, ?_⟩
      cases l with
      | nil => simpa using fun heq => hcr heq [] ls rfl
      | cons d l => simpa using hend
    · exact .inr (.inl rfl)
    · exact .inr (.inr ⟨rfl, by simp, rfl⟩)

theorem rawLines_spec (s : Str) : Ended (rawLines s) ∧ unlines (rawLines s) = s := by
  fun_induction rawLines s with
  | case1 => exact ⟨trivial, rfl⟩
  | case2 s ih => exact ⟨⟨by simp, ih.1, .inl ⟨rfl, by simp⟩⟩, by simpa [unlines] using ih.2⟩
  | case3 s ih => exact ⟨⟨by simp, ih.1, .inr (.inl rfl)⟩, by simpa [unlines] using ih.2⟩
  | case4 c s hlf hcrlf ih =>
    obtain ⟨hended, heq⟩ := ih
    constructor
    · refine hended.consFirst hlf ?_
      rintro rfl e ls' hls
      rw [hls] at heq
      exact hcrlf _ rfl (by simpa [unlines] using heq.symm)
    · cases hraw : rawLines s with
      | nil => simp [hraw, unlines] at heq; simp [consFirst, unlines, heq]
      | cons le ls => simpa [hraw, consFirst, unlines] using heq

theorem rawLines_map_fst (s : Str) : (rawLines s).map Prod.fst = lines s := by
  obtain ⟨hended, heq⟩ := rawLines_spec s
  rw [← lines_unlines hended, heq]

def join (sep : Str) (parts : List Str) : Str := List.intercalate sep parts

@[simp] theorem join_singleton (sep s : Str) : join sep [s] = s := List.intercalate_singleton

@[simp] theorem join_cons_cons (sep s t : Str) (ss : List Str) :
    join sep (s :: t :: ss) = s ++ sep ++ join sep (t :: ss) := List.intercalate_cons_cons

theorem join_append {ss ts : List Str} (hss : ss ≠ []) (hts : ts ≠ []) (sep : Str) :
    join sep (ss ++ ts) = join sep ss ++ sep ++ join sep ts := by
  induction ss with
  | nil => exact absurd rfl hss
  | cons s ss ih =>
    cases ss with
    | nil =>
      obtain ⟨t, ts, rfl⟩ := List.exists_cons_of_ne_nil hts
      simp
    | cons s' ss =>
      have hrest := ih (List.cons_ne_nil s' ss)
      rw [List.cons_append] at hrest
      simp [hrest]

theorem join_concat_append (sep : Str) (ss : List Str) (s t : Str) :
    join sep (ss ++ [s ++ t]) = join sep (ss ++ [s]) ++ t := by
  cases ss with
  | nil => simp
  | cons s' ss =>
    rw [join_append (List.cons_ne_nil s' ss) (List.cons_ne_nil _ []),
      join_append (List.cons_ne_nil s' ss) (List.cons_ne_nil _ []), join_singleton, join_singleton,
      List.append_assoc _ s t]

theorem join_append_cons (sep s t : Str) (ss : List Str) :
    join sep ((s ++ (sep ++ t)) :: ss) = join sep (s :: t :: ss) := by
  cases ss <;> simp

theorem join_cons_head (sep : Str) (c : Char) (s : Str) (ss : List Str) :
    join sep ((c :: s) :: ss) = c :: join sep (s :: ss) := by
  cases ss <;> simp

def cmp : Str → Str → Ordering
  | [], [] => .eq
  | [], _ :: _ => .lt
  | _ :: _, [] => .gt
  | c :: s, d :: t => (compare c.toNat d.toNat).then (cmp s t)

def le (s t : Str) : Prop := (cmp s t).isLE

instance : DecidableRel le := fun s t => inferInstanceAs (Decidable ((cmp s t).isLE = true))

theorem cmp_eq_compareLex (s t : Str) : cmp s t = List.compareLex (compareOn Char.toNat) s t := by
  induction s generalizing t with
  | nil => cases t <;> rfl
  | cons c s ih =>
    cases t with
    | nil => rfl
    | cons d t => rw [cmp, List.compareLex_cons_cons, ih, compareOn]

instance : Std.LawfulEqCmp (compareOn Char.toNat) where
  eq_of_compare h := Char.toNat_inj.mp (Std.LawfulEqOrd.eq_of_compare h)

instance : Std.TransCmp cmp := by
  rw [show cmp = List.compareLex (compareOn Char.toNat) from
    funext fun s => funext (cmp_eq_compareLex s)]
  infer_instance

instance : Std.LawfulEqCmp cmp := by
  rw [show cmp = List.compareLex (compareOn Char.toNat) from
    funext fun s => funext (cmp_eq_compareLex s)]
  infer_instance

theorem le_trans {s t u : Str} (h : le s t) (h' : le t u) : le s u := Std.TransCmp.isLE_trans h h'

theorem le_antisymm {s t : Str} (h : le s t) (h' : le t s) : s = t :=
  Std.LawfulEqCmp.eq_of_compare (Std.OrientedCmp.isLE_antisymm h h')

theorem le_total (s t : Str) : le s t ∨ le t s := by
  have hswap : cmp t s = (cmp s t).swap := Std.OrientedCmp.eq_swap
  rw [le, le, hswap]
  cases cmp s t <;> simp

end Str

def sliceList {ε : Type u} {α : Type v} (xs : List α) (lo hi : Nat) : Res ε (List α) :=
  if lo ≤ hi ∧ hi ≤ xs.length then .ok ((xs.drop lo).take (hi - lo)) else .panic .slice

def getList {ε : Type u} {α : Type v} (xs : List α) (i : Nat) : Res ε α :=
  match xs[i]? with
  | some x => .ok x
  | none => .panic .index

theorem getList_ok {ε : Type u} {α : Type v} {xs : List α} {i : Nat} (hi : i < xs.length) :
    (getList xs i : Res ε α) = .ok xs[i] := by
  rw [getList, List.getElem?_eq_getElem hi]

theorem sliceList_ok {ε : Type u} {α : Type v} {xs : List α} {lo hi : Nat}
    (h : lo ≤ hi) (hhi : hi ≤ xs.length) :
    (sliceList xs lo hi : Res ε (List α)) = .ok ((xs.drop lo).take (hi - lo)) := by
  simp [sliceList, h, hhi]

end Rust
