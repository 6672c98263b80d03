import Luaml.PatternPrint

namespace Luaml.Pattern

open Rust Str Res

def totalRise (s : Str) : Int := (s.map rise).sum

/-- Read from depth `d` on, quotes or not, no pipe stands at depth `0` and the brackets stay within
`i32`. -/
def PipeFree (d : Int) : Str → Prop
  | [] => True
  | ch :: s => ¬(ch = '|' ∧ d = 0) ∧ InI32 (d + rise ch) ∧ PipeFree (d + rise ch) s

theorem pipeFree_append {d : Int} {s t : Str} :
    PipeFree d (s ++ t) ↔ PipeFree d s ∧ PipeFree (d + totalRise s) t := by
  induction s generalizing d with
  | nil => simp [PipeFree, totalRise]
  | cons ch s ih =>
    rw [List.cons_append, PipeFree, PipeFree, ih]
    simp only [totalRise, List.map_cons, List.sum_cons, and_assoc, Int.add_assoc]

theorem findPipeFrom_eq_none {d : Int} (hd : InI32 d) {s : Str} :
    findPipeFrom d s = .ok none ↔ PipeFree d s := by
  induction s generalizing d with
  | nil => simp [findPipeFrom, PipeFree]
  | cons ch s ih =>
    rw [findPipeFrom_cons hd, PipeFree]
    split_ifs with hpipe
    · simp [hpipe]
    · rw [and_iff_right hpipe]
      constructor
      · intro h
        obtain ⟨d', hd', h⟩ := bind_eq_ok.mp h
        obtain ⟨hrise, rfl⟩ := checkedI32_eq_ok.mp hd'
        obtain ⟨i, hi, h⟩ := bind_eq_ok.mp h
        obtain rfl := Option.map_eq_none_iff.mp (Res.ok.inj h)
        exact ⟨hrise, (ih hrise).mp hi⟩
      · rintro ⟨hrise, hfree⟩
        rw [checkedI32, if_pos hrise, ok_bind, (ih hrise).mpr hfree]
        rfl

theorem findPipeFrom_shift {d : Int} {ch : Char} {s : Str} {i : Nat} :
    (checkedI32 (d + rise ch) >>= fun d => findPipeFrom d s >>= fun j =>
        .ok (j.map (ch.utf8Size + ·))) = (.ok (some (ch.utf8Size + i)) : Res _ (Option Nat)) ↔
      InI32 (d + rise ch) ∧ findPipeFrom (d + rise ch) s = .ok (some i) := by
  constructor
  · intro h
    obtain ⟨d', hd', h⟩ := bind_eq_ok.mp h
    obtain ⟨hrise, rfl⟩ := checkedI32_eq_ok.mp hd'
    obtain ⟨j, hj, h⟩ := bind_eq_ok.mp h
    obtain ⟨k, rfl, hk⟩ := Option.map_eq_some_iff.mp (Res.ok.inj h)
    obtain rfl := Nat.add_left_cancel hk
    exact ⟨hrise, hj⟩
  · rintro ⟨hrise, h⟩
    rw [checkedI32, if_pos hrise, ok_bind, h]
    rfl

theorem findPipeFrom_ne_zero {d : Int} {ch : Char} {s : Str} :
    (checkedI32 (d + rise ch) >>= fun d => findPipeFrom d s >>= fun j =>
        .ok (j.map (ch.utf8Size + ·))) ≠ (.ok (some 0) : Res _ (Option Nat)) := by
  intro h
  obtain ⟨_, -, h⟩ := bind_eq_ok.mp h
  obtain ⟨j, -, h⟩ := bind_eq_ok.mp h
  obtain ⟨k, -, hk⟩ := Option.map_eq_some_iff.mp (Res.ok.inj h)
  have := ch.utf8Size_pos
  omega

theorem findPipeFrom_cut {d : Int} (hd : InI32 d) {p q : Str} :
    findPipeFrom d (p ++ '|' :: q) = .ok (some (byteLen p)) ↔
      PipeFree d p ∧ d + totalRise p = 0 := by
  induction p generalizing d with
  | nil =>
    rw [List.nil_append, findPipeFrom_cons hd, byteLen_nil]
    split_ifs with hpipe
    · simp [PipeFree, totalRise, hpipe.2]
    · have hd0 : d ≠ 0 := fun h => hpipe ⟨rfl, h⟩
      simp [findPipeFrom_ne_zero, PipeFree, totalRise, hd0]
  | cons ch p ih =>
    have htotal : d + totalRise (ch :: p) = d + rise ch + totalRise p := by
      simp [totalRise, Int.add_assoc]
    rw [List.cons_append, findPipeFrom_cons hd, PipeFree, byteLen_cons, htotal]
    split_ifs with hpipe
    · refine iff_of_false (fun h => ?_) fun h => h.1.1 hpipe
      have hzero := Option.some.inj (Res.ok.inj h)
      have hpos := ch.utf8Size_pos
      omega
    · rw [findPipeFrom_shift, and_iff_right hpipe, and_assoc]
      exact and_congr_right fun hrise => ih hrise

def pipes (s : Str) : Nat := s.count '|'

theorem pipes_append (s t : Str) : pipes (s ++ t) = pipes s + pipes t := List.count_append

theorem pipes_cons {c : Char} (hc : c ≠ '|') (s : Str) : pipes (c :: s) = pipes s :=
  List.count_cons_of_ne hc

theorem pipes_eq_zero {s : Str} (h : Ordinary s) : pipes s = 0 :=
  List.count_eq_zero.mpr (h.not_mem (by decide))

theorem pipes_enclosed {a b : Char} (ha : a ≠ '|') (hb : b ≠ '|') (s : Str) :
    pipes (a :: s ++ [b]) = pipes s := by
  rw [List.cons_append, pipes_cons ha, pipes_append, pipes_cons hb]
  rfl

theorem pipes_dropWhile (s : Str) : pipes (s.dropWhile isWhitespace) = pipes s := by
  induction s with
  | nil => rfl
  | cons c s ih =>
    rw [List.dropWhile_cons]
    split_ifs with hc
    · have hne : c ≠ '|' := by
        rintro rfl
        exact absurd hc (by decide)
      rw [ih, pipes_cons hne]
    · rfl

theorem pipes_trim (s : Str) : pipes (trim s) = pipes s := by
  have hreverse : ∀ t : Str, pipes t.reverse = pipes t := fun t => List.count_reverse
  rw [trim, List.rdropWhile, hreverse, pipes_dropWhile, hreverse, pipes_dropWhile]

theorem pipes_join (ss : List Str) : pipes (join ", ".toList ss) = (ss.map pipes).sum := by
  induction ss with
  | nil => rfl
  | cons s ss ih =>
    cases ss with
    | nil => simp
    | cons t ss =>
      have hsep : pipes ", ".toList = 0 := rfl
      rw [join_cons_cons, pipes_append, pipes_append, ih, hsep, List.map_cons, List.sum_cons]
      rfl

theorem Split.step_cases {delim : Char} {st st' : Split} {ch : Char}
    (h : st.step delim ch = .ok st') :
    st'.parts = st.parts ∧ st'.current = st.current ++ [ch] ∨ ch = delim ∧ st' = st.cut := by
  unfold step at h
  split_ifs at h with hin hclose hquote hopen hclose hcut
  · obtain rfl := Res.ok.inj h
    exact .inl ⟨rfl, rfl⟩
  · obtain rfl := Res.ok.inj h
    exact .inl ⟨rfl, rfl⟩
  · obtain rfl := Res.ok.inj h
    exact .inl ⟨rfl, rfl⟩
  · obtain ⟨d, -, h⟩ := bind_eq_ok.mp h
    obtain rfl := Res.ok.inj h
    exact .inl ⟨rfl, rfl⟩
  · obtain ⟨d, -, h⟩ := bind_eq_ok.mp h
    obtain rfl := Res.ok.inj h
    exact .inl ⟨rfl, rfl⟩
  · exact .inr ⟨hcut.1, (Res.ok.inj h).symm⟩
  · obtain rfl := Res.ok.inj h
    exact .inl ⟨rfl, rfl⟩

theorem Split.step_pipes {st st' : Split} {ch : Char} (h : st.step ',' ch = .ok st') :
    pipes (st'.parts.flatten ++ st'.current) =
      pipes (st.parts.flatten ++ st.current) + pipes [ch] := by
  rcases Split.step_cases h with ⟨hparts, hcurrent⟩ | ⟨rfl, rfl⟩
  · rw [hparts, hcurrent, ← List.append_assoc, pipes_append]
  · simp [Split.cut, pipes]

theorem Split.read_pipes {st st' : Split} {s : Str} (h : Split.read ',' st s = .ok st') :
    pipes (st'.parts.flatten ++ st'.current) =
      pipes (st.parts.flatten ++ st.current) + pipes s := by
  induction s generalizing st with
  | nil =>
    obtain rfl := Res.ok.inj h
    rfl
  | cons ch s ih =>
    obtain ⟨st₁, hstep, hrest⟩ := bind_eq_ok.mp h
    rw [ih hrest, Split.step_pipes hstep, Nat.add_assoc, ← pipes_append]
    rfl

theorem splitTopLevel_pipes {s : Str} {parts : List Str} (h : splitTopLevel s ',' = .ok parts) :
    (parts.map pipes).sum = pipes s := by
  obtain ⟨st, hread, hparts⟩ := bind_eq_ok.mp h
  have hpipes := Split.read_pipes hread
  have hflatten : ∀ parts : List Str, (parts.map pipes).sum = pipes parts.flatten := by
    intro parts
    induction parts with
    | nil => rfl
    | cons s parts ih => rw [List.map_cons, List.sum_cons, ih, List.flatten_cons, pipes_append]
  obtain rfl := Res.ok.inj hparts
  rw [hflatten]
  unfold Split.finish
  split_ifs with hempty
  · simpa [List.isEmpty_iff.mp hempty, Split.start, pipes] using hpipes
  · simpa [Split.start, pipes] using hpipes

theorem pipes_splitSign (s : Str) : pipes (splitSign s).2 = pipes s := by
  unfold splitSign
  split
  · exact (pipes_cons (by decide) _).symm
  · exact (pipes_cons (by decide) _).symm
  · rfl

theorem pipes_of_parseI64 {s : Str} {n : Int64} (h : parseI64 s = some n) : pipes s = 0 := by
  have hdigits : (splitSign s).2.all isDigit := by
    simp only [parseI64] at h
    split_ifs at h with hnone <;>
      simpa using (not_or.mp (mt Bool.or_eq_true_iff.mpr hnone)).2
  rw [← pipes_splitSign]
  refine List.count_eq_zero.mpr fun hmem => ?_
  exact absurd (List.all_eq_true.mp hdigits _ hmem) (by decide)

theorem pipes_of_parseName {make : Str → Pattern} {message name input : Str} {p : Pattern}
    (h : parseName make message name input = .ok p) :
    pipes name = 0 ∧ ∃ n, isIdentifier n ∧ p = make n := by
  simp only [parseName] at h
  split_ifs at h with hid
  exact ⟨by rw [← pipes_trim, pipes_eq_zero (.name hid)], _, hid, (Res.ok.inj h).symm⟩

theorem pipes_of_flat {input : Str} {value : Str → Res PatternParseError Pattern} {p : Pattern}
    (hl : (startsWith (trim input) '[' && endsWith (trim input) ']') = false)
    (hm : (startsWith (trim input) '{' && endsWith (trim input) '}') = false)
    (h : parseValue value input = .ok p) : pipes (trim input) = pipes (print p) := by
  have hlone : ¬LoneQuote input := fun hlone => by simp [parseValue_of_loneQuote hlone] at h
  simp only [parseValue, hl, hm, Bool.false_eq_true, if_false] at h
  split_ifs at h with hempty hwild henum hquote htrue hfalse
  · rw [← Res.ok.inj h]
    rcases hwild with heq | heq <;> rw [heq] <;> rfl
  · obtain ⟨⟨hs, he⟩, hlen⟩ : (startsWith (trim input) ':' ∧ endsWith (trim input) ':') ∧
        3 ≤ byteLen (trim input) := by simpa using henum
    obtain ⟨m, hm⟩ := eq_bracketed hs he fun heq => by
      rw [heq] at hlen
      exact absurd hlen (by decide)
    rw [hm, slice_bracketed rfl rfl, ok_bind] at h
    split_ifs at h
    rw [← Res.ok.inj h, hm]
    rfl
  · have hone : ∀ q : Char, q.utf8Size = 1 → q ≠ '|' → startsWith (trim input) q →
        endsWith (trim input) q → trim input ≠ [q] → pipes (trim input) = pipes (print p) := by
      intro q hsize hq hs he hne
      obtain ⟨m, hm⟩ := eq_bracketed hs he hne
      rw [hm, slice_bracketed hsize hsize, ok_bind] at h
      rw [← Res.ok.inj h, hm, pipes_enclosed hq hq]
      exact (pipes_enclosed (by decide) (by decide) m).symm
    simp only [Bool.or_eq_true, Bool.and_eq_true] at hquote
    rcases hquote with ⟨hs, he⟩ | ⟨hs, he⟩
    · exact hone '"' rfl (by decide) hs he fun heq => hlone (.inl heq)
    · exact hone '\'' rfl (by decide) hs he fun heq => hlone (.inr heq)
  · rw [← Res.ok.inj h, htrue]
    rfl
  · rw [← Res.ok.inj h, hfalse]
    rfl
  · cases hn : parseI64 (trim input) with
    | some n =>
      simp only [hn] at h
      rw [← Res.ok.inj h, pipes_of_parseI64 hn]
      exact (pipes_eq_zero (.intText _)).symm
    | none =>
      cases hdollar : stripPrefix '$' (trim input) with
      | some name =>
        simp only [hn, hdollar] at h
        obtain ⟨hpipes, n, hid, rfl⟩ := pipes_of_parseName h
        rw [eq_cons_of_stripPrefix hdollar, pipes_cons (by decide), hpipes]
        exact (pipes_eq_zero (.cons (by decide) (.name hid))).symm
      | none =>
        cases hcaret : stripPrefix '^' (trim input) with
        | some name =>
          simp only [hn, hdollar, hcaret] at h
          obtain ⟨hpipes, n, hid, rfl⟩ := pipes_of_parseName h
          rw [eq_cons_of_stripPrefix hcaret, pipes_cons (by decide), hpipes]
          exact (pipes_eq_zero (.cons (by decide) (.name hid))).symm
        | none => simp [hn, hdollar, hcaret] at h

theorem pipes_of_entryCall {pair v : Str} (h : entryCall pair = some v) : pipes pair = pipes v := by
  simp only [entryCall, Option.bind_eq_some_iff] at h
  obtain ⟨⟨key, val⟩, hsplit, h⟩ := h
  split_ifs at h with hid
  obtain rfl := Option.some.inj h
  have hkey : pipes key = 0 := by rw [← pipes_trim, pipes_eq_zero (.name hid)]
  rw [← pipes_trim, (splitOnce_eq_some hsplit).1, pipes_append, hkey, pipes_cons (by decide),
    pipes_trim, Nat.zero_add]

theorem pipes_of_listValues {inner : Str} {r : List Str × Bool} (h : listValues inner = .ok r) :
    pipes inner = (r.1.map pipes).sum + r.2.toNat ∧ (r.2 = true → r.1.length = 2) := by
  obtain ⟨pipe, hpipe, h⟩ := bind_eq_ok.mp h
  cases pipe with
  | some i =>
    obtain ⟨p, q, hinner, -, hhalves⟩ := halves_of_findPipe hpipe
    obtain rfl := Res.ok.inj h
    have hcons : pipes ('|' :: q) = pipes q + 1 := List.count_cons_self
    rw [hhalves, hinner, pipes_append, hcons]
    simp [pipes_trim, Nat.add_assoc]
  | none =>
    obtain ⟨elements, helements, h⟩ := bind_eq_ok.mp h
    obtain rfl := Res.ok.inj h
    have htrim : pipes ∘ trim = pipes := funext pipes_trim
    simp [htrim, splitTopLevel_pipes helements]

theorem pipes_printElements {vs : List Str} {ps : List Pattern}
    (h : List.Forall₂ (fun v p => pipes v = pipes (print p)) vs ps) :
    (vs.map pipes).sum = ((printElements ps).map pipes).sum := by
  induction h with
  | nil => rfl
  | cons hv _ ih => simp only [printElements, List.map_cons, List.sum_cons, hv, ih]

theorem pipes_printEntries {pairs : List Str} {fields : List (Str × Pattern)}
    (h : List.Forall₂ (fun pair f => isIdentifier f.1 ∧ pipes pair = pipes (print f.2)) pairs
      fields) :
    (pairs.map pipes).sum = ((printEntries fields).map pipes).sum := by
  induction h with
  | nil => rfl
  | cons hf _ ih =>
    have hsep : pipes ": ".toList = 0 := rfl
    simp only [printEntries, List.map_cons, List.sum_cons, pipes_append, hsep,
      pipes_eq_zero (.name hf.1), hf.2, ih, Nat.zero_add]

theorem pipes_listOf {inner : Str} {r : List Str × Bool} (hr : listValues inner = .ok r)
    {ps : List Pattern} (h : List.Forall₂ (fun v p => pipes v = pipes (print p)) r.1 ps) :
    pipes inner = pipes (printList (listOf inner r.2 ps)) := by
  obtain ⟨hpipes, htwo⟩ := pipes_of_listValues hr
  obtain ⟨vs, piped⟩ := r
  unfold listOf
  cases inner with
  | nil => rfl
  | cons c inner =>
    rw [hpipes]
    simp only [List.isEmpty_cons, Bool.false_eq_true, if_false]
    cases piped with
    | false =>
      dsimp only
      rw [printList, pipes_join, pipes_printElements h]
      rfl
    | true =>
      obtain ⟨v, w, rfl⟩ := List.length_eq_two.mp (htwo rfl)
      obtain ⟨head, _, hv, hrest, rfl⟩ := List.forall₂_cons_left_iff.mp h
      obtain ⟨tail, _, hw, hnil, rfl⟩ := List.forall₂_cons_left_iff.mp hrest
      obtain rfl := List.forall₂_nil_left_iff.mp hnil
      have hsep : pipes " | ".toList = 1 := rfl
      simp only [printList, pipes_append, hsep, List.map_cons, List.sum_cons, List.map_nil,
        List.sum_nil, hv, hw, Bool.toNat_true]
      omega

theorem pipes_of_parse {s : Str} {p : Pattern} (h : parsePatternValue s = .ok p) :
    pipes s = pipes (print p) := by
  rw [parsePatternValue_eq] at h
  rw [← pipes_trim]
  rcases shape s with ⟨m, hm⟩ | ⟨m, hm⟩ | ⟨hl, hb⟩
  · rw [parseValue_bracketed hm, parseListPattern_eq] at h
    obtain ⟨r, hr, h⟩ := bind_eq_ok.mp h
    obtain ⟨ps, hps, h⟩ := bind_eq_ok.mp h
    have hall : List.Forall₂ (fun v p => pipes v = pipes (print p)) r.1 ps := by
      refine forall₂_of_collect hps fun v hv p hp => ?_
      have := byteLen_lt_of_enclosed hm (listValues_isInfix hr hv)
      exact pipes_of_parse hp
    rw [hm, ← Res.ok.inj h, print, pipes_enclosed (by decide) (by decide),
      pipes_enclosed (by decide) (by decide), ← pipes_trim, pipes_listOf hr hall]
  · rw [parseValue_braced hm, parseMapPattern_eq] at h
    obtain ⟨pairs, hpairs, h⟩ := bind_eq_ok.mp h
    obtain ⟨fields, hfields, h⟩ := bind_eq_ok.mp h
    have hall : List.Forall₂ (fun pair f => isIdentifier f.1 ∧ pipes pair = pipes (print f.2)) pairs
        fields := by
      refine forall₂_of_collect hfields fun pair hpair f hf => ?_
      cases hcall : entryCall pair with
      | none =>
        obtain ⟨e, he⟩ := parseMapEntry_of_none hcall
        simp [he] at hf
      | some v =>
        obtain ⟨key, hid, hkey⟩ := parseMapEntry_of_some hcall
        rw [hkey] at hf
        obtain ⟨p, hp, hf⟩ := bind_eq_ok.mp hf
        obtain rfl := Res.ok.inj hf
        have := byteLen_lt_of_enclosed hm
          ((entryCall_isInfix hcall).trans (splitTopLevel_isInfix hpairs hpair))
        exact ⟨hid, (pipes_of_entryCall hcall).trans (pipes_of_parse hp)⟩
    rw [hm, ← Res.ok.inj h, print, pipes_enclosed (by decide) (by decide),
      pipes_enclosed (by decide) (by decide), ← pipes_trim, ← splitTopLevel_pipes hpairs,
      pipes_join, pipes_printEntries hall]
  · exact pipes_of_flat hl hb h
termination_by byteLen s

end Luaml.Pattern
