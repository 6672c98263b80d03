import Luaml.PatternRoundTrip

namespace Luaml.Pattern

open Rust Str Res

def quotesAndBrackets : Str := ['"', '\'', '[', ']', '{', '}']

/-- The quote that is open at the end of a text, and the depth of the brackets outside quotes. -/
def place (s : Str) : Option Char × Int :=
  s.foldl (fun st ch => (quoteAfter st.1 ch, st.2 + unquotedRise st.1 ch)) (none, 0)

theorem place_concat (s : Str) (ch : Char) :
    place (s ++ [ch]) =
      (quoteAfter (place s).1 ch, (place s).2 + unquotedRise (place s).1 ch) :=
  List.foldl_concat _ _ _ _

section

variable {delim ch : Char} {parts : List Str} {last p q : Str} {st st' : Split} {seen : Str}

def CutAt (delim : Char) (parts : List Str) (p : Str) : Prop :=
  ∃ before, before <+: parts ∧ before ≠ [] ∧ join [delim] before = p

theorem cutAt_concat (hjoin : join [delim] (parts ++ [last]) = p ++ delim :: q) :
    CutAt delim (parts ++ [last]) p ↔ CutAt delim parts p := by
  constructor
  · rintro ⟨before, hbefore, hne, rfl⟩
    rcases List.prefix_concat_iff.mp hbefore with rfl | hbefore
    · simp at hjoin
    · exact ⟨before, hbefore, hne, rfl⟩
  · rintro ⟨before, hbefore, hne, rfl⟩
    exact ⟨before, hbefore.trans (List.prefix_append _ _), hne, rfl⟩

theorem ne_of_cutAt (hcut : CutAt delim parts p) (last : Str) :
    p ≠ join [delim] (parts ++ [last]) := by
  obtain ⟨before, ⟨after, rfl⟩, hne, rfl⟩ := hcut
  rw [List.append_assoc, join_append hne (by simp)]
  simp

theorem Split.step_cut (hdelim : delim ∉ quotesAndBrackets) (hstep : st.step delim ch = .ok st') :
    (ch = delim ∧ st.quote = none ∧ st.depth = 0) ∧
        st'.parts = st.parts ++ [st.current] ∧ st'.current = [] ∨
      ¬(ch = delim ∧ st.quote = none ∧ st.depth = 0) ∧
        st'.parts = st.parts ∧ st'.current = st.current ++ [ch] := by
  have hnot : ∀ c ∈ quotesAndBrackets, ch = c →
      ¬(ch = delim ∧ st.quote = none ∧ st.depth = 0) := by
    rintro c hc rfl ⟨rfl, -⟩
    exact hdelim hc
  unfold step at hstep
  split_ifs at hstep with hin hclose hquote hopen hclose hcut
  · obtain rfl := Res.ok.inj hstep
    exact .inr ⟨fun hcut => by simp [quote, hin] at hcut, rfl, rfl⟩
  · obtain rfl := Res.ok.inj hstep
    exact .inr ⟨fun hcut => by simp [quote, hin] at hcut, rfl, rfl⟩
  · obtain rfl := Res.ok.inj hstep
    refine .inr ⟨?_, rfl, rfl⟩
    rcases hquote with hch | hch <;> exact hnot _ (by decide) hch
  · obtain ⟨d, -, hstep⟩ := bind_eq_ok.mp hstep
    obtain rfl := Res.ok.inj hstep
    refine .inr ⟨?_, rfl, rfl⟩
    rcases hopen with hch | hch <;> exact hnot _ (by decide) hch
  · obtain ⟨d, -, hstep⟩ := bind_eq_ok.mp hstep
    obtain rfl := Res.ok.inj hstep
    refine .inr ⟨?_, rfl, rfl⟩
    rcases hclose with hch | hch <;> exact hnot _ (by decide) hch
  · obtain rfl := Res.ok.inj hstep
    exact .inl ⟨⟨hcut.1, by simp [quote, hin], hcut.2⟩, rfl, rfl⟩
  · obtain rfl := Res.ok.inj hstep
    exact .inr ⟨fun hcut' => hcut ⟨hcut'.1, hcut'.2.2⟩, rfl, rfl⟩

structure Split.Lossless (delim : Char) (st : Split) (seen : Str) : Prop where
  depth : InI32 st.depth
  place : place seen = (st.quote, st.depth)
  joined : join [delim] (st.parts ++ [st.current]) = seen
  cuts : ∀ p q, seen = p ++ delim :: q → (CutAt delim st.parts p ↔ Pattern.place p = (none, 0))

theorem Split.Lossless.step (hdelim : delim ∉ quotesAndBrackets) (h : st.Lossless delim seen)
    (hstep : st.step delim ch = .ok st') : st'.Lossless delim (seen ++ [ch]) := by
  obtain ⟨hdepth, hnext⟩ := Split.next_of_step h.depth hstep
  have hcut := Split.step_cut hdelim hstep
  have hhere : Pattern.place seen = (none, 0) ↔ st.quote = none ∧ st.depth = 0 := by
    rw [h.place, Prod.mk.injEq]
  have hplace : Pattern.place (seen ++ [ch]) = (st'.quote, st'.depth) := by
    rw [place_concat, h.place, hnext.quote, hnext.depth]
  refine ⟨hdepth, hplace, ?_, ?_⟩
  · rcases hcut with ⟨⟨rfl, -⟩, hparts, hcurrent⟩ | ⟨-, hparts, hcurrent⟩
    · rw [hparts, hcurrent, join_append (by simp) (by simp), h.joined]
      simp
    · rw [hparts, hcurrent, join_concat_append, h.joined]
  · intro p q hread
    cases q using List.reverseRecOn with
    | nil =>
      obtain ⟨rfl, rfl⟩ : seen = p ∧ ch = delim := by simpa using hread
      rw [hhere]
      rcases hcut with ⟨⟨-, hout⟩, hparts, -⟩ | ⟨hkept, hparts, -⟩
      · rw [hparts]
        exact iff_of_true ⟨_, List.prefix_refl _, by simp, h.joined⟩ hout
      · rw [hparts]
        refine iff_of_false (fun hcut => ?_) fun hout => hkept ⟨rfl, hout⟩
        exact ne_of_cutAt hcut st.current h.joined.symm
    | append_singleton q last =>
      have happend : seen ++ [ch] = (p ++ delim :: q) ++ [last] := by simpa using hread
      have hread := (List.append_inj' happend rfl).1
      rw [← h.cuts p q hread]
      rcases hcut with ⟨-, hparts, -⟩ | ⟨-, hparts, -⟩
      · rw [hparts]
        exact cutAt_concat (h.joined.trans hread)
      · rw [hparts]

theorem Split.Lossless.read (hdelim : delim ∉ quotesAndBrackets) (h : st.Lossless delim seen)
    {s : Str} (hread : Split.read delim st s = .ok st') : st'.Lossless delim (seen ++ s) := by
  induction s generalizing st seen with
  | nil =>
    obtain rfl := Res.ok.inj hread
    rwa [List.append_nil]
  | cons ch s ih =>
    obtain ⟨st₁, hstep, hread⟩ := bind_eq_ok.mp hread
    have hnext := ih (h.step hdelim hstep) hread
    rwa [List.append_assoc] at hnext

theorem start_lossless (delim : Char) : Split.start.Lossless delim [] where
  depth := by decide
  place := rfl
  joined := rfl
  cuts p q hread := by simp at hread

/-- For a delimiter that is not a quote or a bracket: `split_top_level` returns where the depth of
the brackets can be counted, the parts are those of the text but for a delimiter at its end, and the
text is cut at each delimiter outside quotes and brackets, and nowhere else. -/
theorem splitTopLevel_lossless (hdelim : delim ∉ quotesAndBrackets) (s : Str) :
    ((∃ parts, splitTopLevel s delim = .ok parts) ↔ NestsUnquoted none 0 s) ∧
      ∀ parts, splitTopLevel s delim = .ok parts →
        (join [delim] parts = s ∨ join [delim] parts ++ [delim] = s) ∧
          ∀ p q, s = p ++ delim :: q → (CutAt delim parts p ↔ place p = (none, 0)) := by
  refine ⟨splitTopLevel_isOk s delim, fun parts hsplit => ?_⟩
  obtain ⟨st, hread, hfinish⟩ := bind_eq_ok.mp hsplit
  obtain rfl := Res.ok.inj hfinish
  have h := (start_lossless delim).read hdelim hread
  rw [List.nil_append] at h
  rw [Split.finish]
  split_ifs with hempty
  · refine ⟨?_, h.cuts⟩
    have hjoined := h.joined
    rw [List.isEmpty_iff.mp hempty] at hjoined
    by_cases hparts : st.parts = []
    · rw [hparts] at hjoined ⊢
      exact .inl hjoined
    · rw [join_append hparts (by simp), join_singleton, List.append_nil] at hjoined
      exact .inr hjoined
  · refine ⟨.inl h.joined, fun p q hs => ?_⟩
    rw [cutAt_concat (h.joined.trans hs), h.cuts p q hs]

theorem splitTopLevel_nested :
    ((∃ parts, splitTopLevel "[1,2],'a,',".toList ',' = .ok parts) ↔
        NestsUnquoted none 0 "[1,2],'a,',".toList) ∧
      ∀ parts, splitTopLevel "[1,2],'a,',".toList ',' = .ok parts →
        (join [','] parts = "[1,2],'a,',".toList ∨
          join [','] parts ++ [','] = "[1,2],'a,',".toList) ∧
          ∀ p q, "[1,2],'a,',".toList = p ++ ',' :: q →
            (CutAt ',' parts p ↔ place p = (none, 0)) :=
  splitTopLevel_lossless (by decide) _

end

end Luaml.Pattern
