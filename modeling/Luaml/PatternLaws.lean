import Luaml.Pattern

namespace Luaml.Pattern

open Rust Str Res

def rise (ch : Char) : Int :=
  if ch = '[' ∨ ch = '{' then 1 else if ch = ']' ∨ ch = '}' then -1 else 0

/-- Read from depth `d` on, the brackets up to the first pipe at depth `0` stay within `i32`. -/
def NestsToPipe (d : Int) : Str → Prop
  | [] => True
  | ch :: s => ch = '|' ∧ d = 0 ∨ InI32 (d + rise ch) ∧ NestsToPipe (d + rise ch) s

theorem findPipeFrom_cons {d : Int} (hd : InI32 d) (ch : Char) (s : Str) :
    findPipeFrom d (ch :: s) =
      if ch = '|' ∧ d = 0 then .ok (some 0)
      else checkedI32 (d + rise ch) >>= fun d => findPipeFrom d s >>= fun i =>
        .ok (i.map (ch.utf8Size + ·)) := by
  rw [findPipeFrom, rise]
  split_ifs with hopen hpipe hclose hpipe hpipe
  · rcases hopen with rfl | rfl <;> exact absurd hpipe.1 (by decide)
  · rfl
  · rcases hclose with rfl | rfl <;> exact absurd hpipe.1 (by decide)
  · rfl
  · rfl
  · rw [Int.add_zero, checkedI32, if_pos hd, ok_bind]

theorem returns_findPipeFrom {d : Int} (hd : InI32 d) (s : Str) :
    (findPipeFrom d s).Returns ↔ NestsToPipe d s := by
  induction s generalizing d with
  | nil => simp [findPipeFrom, NestsToPipe]
  | cons ch s ih =>
    rw [findPipeFrom_cons hd, NestsToPipe]
    split_ifs with hpipe
    · simp [hpipe]
    · rw [returns_bind, returns_checkedI32, or_iff_right hpipe]
      apply and_congr_right
      intro hrise
      simp [checkedI32_eq_ok, hrise, returns_bind, ih hrise]

theorem findPipeFrom_eq_some {d : Int} (hd : InI32 d) {s : Str} {i : Nat}
    (h : findPipeFrom d s = .ok (some i)) : ∃ p q, s = p ++ '|' :: q ∧ i = byteLen p := by
  induction s generalizing d i with
  | nil => simp [findPipeFrom] at h
  | cons ch s ih =>
    rw [findPipeFrom_cons hd] at h
    split_ifs at h with hpipe
    · exact ⟨[], s, by simp [hpipe.1], by simpa using h.symm⟩
    · obtain ⟨d', hd', h⟩ := bind_eq_ok.mp h
      obtain ⟨hrise, rfl⟩ := checkedI32_eq_ok.mp hd'
      obtain ⟨r, hr, h⟩ := bind_eq_ok.mp h
      obtain ⟨j, rfl, rfl⟩ := Option.map_eq_some_iff.mp (Res.ok.inj h)
      obtain ⟨p, q, rfl, rfl⟩ := ih hrise hr
      exact ⟨ch :: p, q, rfl, rfl⟩

def quoteAfter : Option Char → Char → Option Char
  | some q, ch => if ch = q then none else some q
  | none, ch => if ch = '"' ∨ ch = '\'' then some ch else none

def unquotedRise : Option Char → Char → Int
  | some _, _ => 0
  | none, ch => rise ch

def NestsUnquoted (quote : Option Char) (d : Int) : Str → Prop
  | [] => True
  | ch :: s => InI32 (d + unquotedRise quote ch) ∧
      NestsUnquoted (quoteAfter quote ch) (d + unquotedRise quote ch) s

def Split.quote (st : Split) : Option Char := if st.inQuotes then some st.quoteChar else none

/-- A step that adds the character to the current part, or cuts the part there. -/
structure Split.Next (st st' : Split) (ch : Char) : Prop where
  quote : st'.quote = quoteAfter st.quote ch
  depth : st'.depth = st.depth + unquotedRise st.quote ch
  parts : st'.parts = st.parts ∧ st'.current = st.current ++ [ch] ∨
    st'.parts = st.parts ++ [st.current] ∧ st'.current = []

theorem Split.step_spec (delim : Char) {st : Split} (hd : InI32 st.depth) (ch : Char) :
    ∃ st', st.step delim ch =
        (checkedI32 (st.depth + unquotedRise st.quote ch) >>= fun _ => .ok st') ∧
      st.Next st' ch := by
  obtain ⟨parts, depth, current, inQuotes, quoteChar⟩ := st
  have hstays : (checkedI32 (depth + 0) : Res PatternParseError Int) = .ok depth := by
    rw [Int.add_zero, checkedI32, if_pos hd]
  unfold step
  cases inQuotes with
  | true =>
    simp only [quote, unquotedRise, if_true, hstays, ok_bind]
    split_ifs with hclose
    · refine ⟨_, rfl, ?_, (Int.add_zero depth).symm, .inl ⟨rfl, rfl⟩⟩
      simp [quote, quoteAfter, hclose]
    · refine ⟨_, rfl, ?_, (Int.add_zero depth).symm, .inl ⟨rfl, rfl⟩⟩
      simp [quote, push, quoteAfter, hclose]
  | false =>
    simp only [quote, unquotedRise, rise, Bool.false_eq_true, if_false]
    by_cases hquote : ch = '"' ∨ ch = '\''
    · have hrise : rise ch = 0 := by rcases hquote with rfl | rfl <;> rfl
      rw [if_pos hquote, ← rise, hrise, hstays]
      refine ⟨_, rfl, ?_, ?_, .inl ⟨rfl, rfl⟩⟩
      · simp [quote, quoteAfter, hquote]
      · simp [quote, push, unquotedRise, hrise]
    · have hafter : quoteAfter none ch = none := by simp [quoteAfter, hquote]
      rw [if_neg hquote]
      split_ifs with hopen hclose hcut
      · rw [checkedI32_bind]
        refine ⟨_, rfl, hafter.symm, ?_, .inl ⟨rfl, rfl⟩⟩
        simp [quote, unquotedRise, rise, hopen]
      · rw [Int.sub_eq_add_neg, checkedI32_bind]
        refine ⟨_, rfl, hafter.symm, ?_, .inl ⟨rfl, rfl⟩⟩
        simp [quote, unquotedRise, rise, hopen, hclose]
      · rw [hstays]
        refine ⟨_, rfl, hafter.symm, ?_, .inr ⟨rfl, rfl⟩⟩
        simp [quote, unquotedRise, rise, hopen, hclose]
      · rw [hstays]
        refine ⟨_, rfl, hafter.symm, ?_, .inl ⟨rfl, rfl⟩⟩
        simp [quote, push, unquotedRise, rise, hopen, hclose]

theorem Split.next_of_step {delim : Char} {st st' : Split} (hd : InI32 st.depth) {ch : Char}
    (hstep : st.step delim ch = .ok st') : InI32 st'.depth ∧ st.Next st' ch := by
  obtain ⟨st'', heq, hnext⟩ := st.step_spec delim hd ch
  rw [heq] at hstep
  obtain ⟨d, hd', hst'⟩ := bind_eq_ok.mp hstep
  obtain ⟨hin, rfl⟩ := checkedI32_eq_ok.mp hd'
  obtain rfl := Res.ok.inj hst'
  exact ⟨by rwa [hnext.depth], hnext⟩

theorem Split.returns_read (delim : Char) {st : Split} (hd : InI32 st.depth) (s : Str) :
    (Split.read delim st s).Returns ↔ NestsUnquoted st.quote st.depth s := by
  induction s generalizing st with
  | nil => simp [Split.read, NestsUnquoted]
  | cons ch s ih =>
    obtain ⟨st', hstep, hnext⟩ := st.step_spec delim hd ch
    rw [← hnext.depth] at hstep
    rw [Split.read, NestsUnquoted, ← hnext.quote, ← hnext.depth, hstep, returns_bind, returns_bind,
      returns_checkedI32]
    constructor
    · rintro ⟨⟨hin, -⟩, hrest⟩
      refine ⟨hin, (ih hin).mp (hrest st' ?_)⟩
      rw [checkedI32, if_pos hin, ok_bind]
    · rintro ⟨hin, hrest⟩
      refine ⟨⟨hin, fun _ _ => returns_ok _⟩, fun st'' hst'' => ?_⟩
      obtain ⟨_, -, hst''⟩ := bind_eq_ok.mp hst''
      obtain rfl := Res.ok.inj hst''
      exact (ih hin).mpr hrest

structure Split.Within (st : Split) (read : Str) : Prop where
  depth : InI32 st.depth
  parts : ∀ p ∈ st.parts, p <:+: read
  current : st.current <:+ read

theorem Split.Within.step {st st' : Split} {read : Str} (h : st.Within read) {delim ch : Char}
    (hstep : st.step delim ch = .ok st') : st'.Within (read ++ [ch]) := by
  obtain ⟨hdepth, hnext⟩ := Split.next_of_step h.depth hstep
  have hparts : ∀ p ∈ st.parts, p <:+: read ++ [ch] := fun p hp =>
    (h.parts p hp).trans (List.infix_append' [] read [ch])
  rcases hnext.parts with ⟨hsame, hcurrent⟩ | ⟨hcut, hcurrent⟩
  · refine ⟨hdepth, by rwa [hsame], ?_⟩
    obtain ⟨t, ht⟩ := h.current
    exact ⟨t, by rw [hcurrent, ← List.append_assoc, ht]⟩
  · refine ⟨hdepth, ?_, by simp [hcurrent]⟩
    rw [hcut, List.forall_mem_append, List.forall_mem_singleton]
    exact ⟨hparts, h.current.isInfix.trans (List.infix_append' [] read [ch])⟩

theorem Split.Within.read {st st' : Split} {read : Str} (h : st.Within read) {delim : Char}
    {s : Str} (hread : Split.read delim st s = .ok st') : st'.Within (read ++ s) := by
  induction s generalizing st read with
  | nil =>
    obtain rfl := Res.ok.inj hread
    simpa using h
  | cons ch s ih =>
    obtain ⟨st₁, hst₁, hread⟩ := bind_eq_ok.mp hread
    simpa using ih (h.step hst₁) hread

theorem returns_splitTopLevel (s : Str) (delim : Char) :
    (splitTopLevel s delim).Returns ↔ NestsUnquoted none 0 s := by
  rw [splitTopLevel, returns_bind, Split.returns_read delim (by decide) s]
  exact and_iff_left fun _ _ => returns_ok _

theorem splitTopLevel_isInfix {s p : Str} {delim : Char} {parts : List Str}
    (h : splitTopLevel s delim = .ok parts) (hp : p ∈ parts) : p <:+: s := by
  obtain ⟨st, hread, hfinish⟩ := bind_eq_ok.mp h
  obtain rfl := Res.ok.inj hfinish
  have hstart : Split.start.Within [] := ⟨by decide, by simp [Split.start], List.nil_suffix⟩
  have hw : st.Within s := hstart.read hread
  unfold Split.finish at hp
  split_ifs at hp
  · exact hw.parts p hp
  · rcases List.mem_append.mp hp with hp | hp
    · exact hw.parts p hp
    · rw [List.mem_singleton.mp hp]
      exact hw.current.isInfix

def halves (inner : Str) (pipePos : Nat) : List Str :=
  match splitAtByte inner pipePos with
  | some (p, q) => [trim p, trim q.tail]
  | none => []

def listValues (inner : Str) : Res PatternParseError (List Str × Bool) := do
  match ← findPipe inner with
  | some pipePos => .ok (halves inner pipePos, true)
  | none =>
    let elements ← splitTopLevel inner ','
    .ok (elements.map trim, false)

def entryCall (pair : Str) : Option Str :=
  (splitOnce ':' (trim pair)).bind fun kv =>
    if isIdentifier (trim kv.1) then some (trim kv.2) else none

def entryCalls : List Str → List Str
  | [] => []
  | pair :: pairs =>
    match entryCall pair with
    | some v => v :: entryCalls pairs
    | none => []

def byForm {α : Type} (list map : Str → α) (flat : α) (input : Str) : α :=
  let trimmed := trim input
  let inner := trim trimmed.tail.dropLast
  if startsWith trimmed '[' && endsWith trimmed ']' then list inner
  else if startsWith trimmed '{' && endsWith trimmed '}' then map inner
  else flat

/-- The strings that `parse_pattern_value` calls itself on, in order, as long as each call
succeeds, when it gets to calling itself. -/
def scan : Str → Res PatternParseError (List Str) :=
  byForm (fun inner => listValues inner >>= fun r => .ok r.1)
    (fun inner => splitTopLevel inner ',' >>= fun pairs => .ok (entryCalls pairs)) (.ok [])

def calls (input : Str) : List Str := (scan input).toOption.getD []

/-- Where the brackets in a list or a map are counted, their depth stays within `i32`. -/
def Nests : Str → Prop :=
  byForm
    (fun inner => NestsToPipe 0 inner ∧ (findPipe inner = .ok none → NestsUnquoted none 0 inner))
    (NestsUnquoted none 0) True

section Form

variable {α : Type} {list map : Str → α} {flat : α} {input m : Str}

theorem byForm_bracketed (h : trim input = '[' :: m ++ [']']) :
    byForm list map flat input = list (trim m) := by
  have hend : endsWith ('[' :: m ++ [']']) ']' = true := endsWith_concat ..
  simp only [byForm, h, hend]
  rw [List.cons_append, List.tail_cons, List.dropLast_concat]
  simp

theorem byForm_braced (h : trim input = '{' :: m ++ ['}']) :
    byForm list map flat input = map (trim m) := by
  have hend : endsWith ('{' :: m ++ ['}']) '}' = true := endsWith_concat ..
  simp only [byForm, h, hend]
  rw [List.cons_append, List.tail_cons, List.dropLast_concat]
  simp

theorem shape (input : Str) :
    (∃ m, trim input = '[' :: m ++ [']']) ∨ (∃ m, trim input = '{' :: m ++ ['}']) ∨
      (startsWith (trim input) '[' && endsWith (trim input) ']') = false ∧
        (startsWith (trim input) '{' && endsWith (trim input) '}') = false := by
  by_cases hl : (startsWith (trim input) '[' && endsWith (trim input) ']') = true
  · obtain ⟨hs, he⟩ := Bool.and_eq_true_iff.mp hl
    refine .inl (eq_bracketed hs he fun h => ?_)
    rw [h] at he
    exact absurd he (by decide)
  · by_cases hb : (startsWith (trim input) '{' && endsWith (trim input) '}') = true
    · obtain ⟨hs, he⟩ := Bool.and_eq_true_iff.mp hb
      refine .inr (.inl (eq_bracketed hs he fun h => ?_))
      rw [h] at he
      exact absurd he (by decide)
    · exact .inr (.inr ⟨by simpa using hl, by simpa using hb⟩)

end Form

theorem halves_of_findPipe {inner : Str} {i : Nat} (h : findPipe inner = .ok (some i)) :
    ∃ p q, inner = p ++ '|' :: q ∧ i = byteLen p ∧ halves inner i = [trim p, trim q] := by
  obtain ⟨p, q, rfl, rfl⟩ := findPipeFrom_eq_some (by decide) h
  refine ⟨p, q, rfl, rfl, ?_⟩
  rw [halves, splitAtByte_append]
  rfl

theorem entryCall_isInfix {pair v : Str} (h : entryCall pair = some v) : v <:+: pair := by
  simp only [entryCall, Option.bind_eq_some_iff] at h
  obtain ⟨⟨key, val⟩, hs, h⟩ := h
  split_ifs at h
  obtain rfl := Option.some.inj h
  have hval : val <:+: trim pair := by
    rw [(splitOnce_eq_some hs).1]
    exact ⟨key ++ [':'], [], by simp⟩
  exact (trim_isInfix val).trans (hval.trans (trim_isInfix pair))

theorem mem_entryCalls {pairs : List Str} {v : Str} (h : v ∈ entryCalls pairs) :
    ∃ pair ∈ pairs, entryCall pair = some v := by
  induction pairs with
  | nil => simp [entryCalls] at h
  | cons pair pairs ih =>
    rw [entryCalls] at h
    cases hp : entryCall pair with
    | none => simp [hp] at h
    | some w =>
      rw [hp] at h
      rcases List.mem_cons.mp h with rfl | h
      · exact ⟨pair, by simp, hp⟩
      · obtain ⟨pair', hmem, hv⟩ := ih h
        exact ⟨pair', by simp [hmem], hv⟩

theorem listValues_isInfix {inner v : Str} {r : List Str × Bool} (h : listValues inner = .ok r)
    (hv : v ∈ r.1) : v <:+: inner := by
  obtain ⟨pipe, hpipe, h⟩ := bind_eq_ok.mp h
  cases pipe with
  | some i =>
    obtain ⟨p, q, rfl, rfl, hhalves⟩ := halves_of_findPipe hpipe
    obtain rfl := Res.ok.inj h
    rw [hhalves] at hv
    rcases List.mem_pair.mp hv with rfl | rfl
    · exact (trim_isInfix p).trans (List.infix_append' [] p ('|' :: q))
    · exact (trim_isInfix q).trans ⟨p ++ ['|'], [], by simp⟩
  | none =>
    obtain ⟨elements, helements, h⟩ := bind_eq_ok.mp h
    obtain rfl := Res.ok.inj h
    obtain ⟨e, he, rfl⟩ := List.mem_map.mp hv
    exact (trim_isInfix e).trans (splitTopLevel_isInfix helements he)

theorem mem_calls {input v : Str} (h : v ∈ calls input) : ∃ vs, scan input = .ok vs ∧ v ∈ vs := by
  unfold calls at h
  cases hscan : scan input with
  | ok vs => exact ⟨vs, rfl, by rwa [hscan] at h⟩
  | err e => simp [hscan, toOption] at h
  | panic c => simp [hscan, toOption] at h

theorem byteLen_lt_of_enclosed {input m v : Str} {a b : Char} (hm : trim input = a :: m ++ [b])
    (hv : v <:+: trim m) : byteLen v < byteLen input := by
  have h₁ := byteLen_le_of_isInfix hv
  have h₂ := byteLen_trim_le m
  have h₃ := byteLen_trim_le input
  have h₄ : byteLen (trim input) = a.utf8Size + byteLen m + b.utf8Size := by
    simp [hm, Nat.add_assoc]
  have h₅ := a.utf8Size_pos
  omega

theorem byteLen_lt_of_mem_calls {input v : Str} (h : v ∈ calls input) :
    byteLen v < byteLen input := by
  obtain ⟨vs, hscan, hv⟩ := mem_calls h
  rcases shape input with ⟨m, hm⟩ | ⟨m, hm⟩ | ⟨hl, hb⟩
  · rw [scan, byForm_bracketed hm] at hscan
    obtain ⟨r, hr, hvs⟩ := bind_eq_ok.mp hscan
    obtain rfl := Res.ok.inj hvs
    exact byteLen_lt_of_enclosed hm (listValues_isInfix hr hv)
  · rw [scan, byForm_braced hm] at hscan
    obtain ⟨pairs, hpairs, hvs⟩ := bind_eq_ok.mp hscan
    obtain rfl := Res.ok.inj hvs
    obtain ⟨pair, hp, hcall⟩ := mem_entryCalls hv
    exact byteLen_lt_of_enclosed hm
      ((entryCall_isInfix hcall).trans (splitTopLevel_isInfix hpairs hp))
  · have hnil : vs = [] := by simpa [scan, byForm, hl, hb] using hscan.symm
    rw [hnil] at hv
    cases hv

theorem returns_listValues (inner : Str) :
    (listValues inner).Returns ↔
      NestsToPipe 0 inner ∧ (findPipe inner = .ok none → NestsUnquoted none 0 inner) := by
  rw [listValues, returns_bind, findPipe, returns_findPipeFrom (by decide)]
  apply and_congr_right
  intro _
  constructor
  · intro h hnone
    have hsplit := h none hnone
    rw [returns_bind, returns_splitTopLevel] at hsplit
    exact hsplit.1
  · intro h pipe hpipe
    cases pipe with
    | some i => exact returns_ok _
    | none =>
      rw [returns_bind, returns_splitTopLevel]
      exact ⟨h hpipe, fun _ _ => returns_ok _⟩

theorem returns_scan (input : Str) : (scan input).Returns ↔ Nests input := by
  rcases shape input with ⟨m, hm⟩ | ⟨m, hm⟩ | ⟨hl, hb⟩
  · rw [scan, Nests, byForm_bracketed hm, byForm_bracketed hm, returns_bind, returns_listValues]
    exact and_iff_left fun _ _ => returns_ok _
  · rw [scan, Nests, byForm_braced hm, byForm_braced hm, returns_bind, returns_splitTopLevel]
    exact and_iff_left fun _ _ => returns_ok _
  · simp [scan, Nests, byForm, hl, hb]

def listOf (inner : Str) (piped : Bool) (ps : List Pattern) : ListPattern :=
  if inner.isEmpty then .empty
  else
    match piped, ps with
    | true, [head, tail] => .headTail head tail
    | _, ps => .elements ps

theorem parseListPattern_eq (value : Str → Res PatternParseError Pattern) (m : Str) :
    parseListPattern value ('[' :: m ++ [']']) =
      listValues (trim m) >>= fun r =>
        collect value r.1 >>= fun ps => .ok (.list (listOf (trim m) r.2 ps)) := by
  have hslice : (slice ('[' :: m ++ [']']) 1 (byteLen ('[' :: m ++ [']']) - 1) :
      Res PatternParseError Str) = .ok m := slice_bracketed rfl rfl m
  rw [parseListPattern, hslice, ok_bind]
  cases hempty : (trim m).isEmpty with
  | true =>
    rw [List.isEmpty_iff.mp hempty]
    rfl
  | false =>
    simp only [listValues, hempty, Bool.false_eq_true, if_false]
    cases hpipe : findPipe (trim m) with
    | err e => rfl
    | panic c => rfl
    | ok pipe =>
      cases pipe with
      | none =>
        simp only [ok_bind]
        cases splitTopLevel (trim m) ',' with
        | err e => rfl
        | panic c => rfl
        | ok elements =>
          simp only [ok_bind, collect_map, listOf, hempty]
          rfl
      | some i =>
        obtain ⟨p, q, hm, rfl, hhalves⟩ := halves_of_findPipe hpipe
        obtain ⟨hto, hfrom⟩ := slices_around (ε := PatternParseError) hm rfl
        simp only [ok_bind, hto, hfrom, hhalves, listOf, hempty, collect_cons, collect_nil,
          Bool.false_eq_true, if_false]
        cases value (trim p) <;> simp
        cases value (trim q) <;> simp

theorem parseMapEntry_of_none {pair : Str} (h : entryCall pair = none) :
    ∃ e, ∀ value, parseMapEntry value pair = .err e := by
  rw [entryCall] at h
  cases hs : splitOnce ':' (trim pair) with
  | none =>
    refine ⟨parseErr "map pattern entry missing ':'".toList (trim pair), fun value => ?_⟩
    simp only [parseMapEntry, splitOnce_eq_none hs]
  | some kv =>
    obtain ⟨hpair, hf⟩ := splitOnce_eq_some hs
    obtain ⟨hto, hfrom⟩ := slices_around (ε := PatternParseError) hpair rfl
    rw [hs, Option.bind_some] at h
    split_ifs at h with hid
    refine ⟨parseErr "invalid map key".toList (trim kv.1), fun value => ?_⟩
    simp only [parseMapEntry, hf, hto, hfrom, ok_bind, if_neg hid]

theorem parseMapEntry_of_split {pair k v : Str} (h : splitOnce ':' (trim pair) = some (k, v))
    (hid : isIdentifier (trim k)) (value : Str → Res PatternParseError Pattern) :
    parseMapEntry value pair = value (trim v) >>= fun p => .ok (trim k, p) := by
  obtain ⟨hpair, hf⟩ := splitOnce_eq_some h
  obtain ⟨hto, hfrom⟩ := slices_around (ε := PatternParseError) hpair rfl
  simp only [parseMapEntry, hf, hto, hfrom, ok_bind, if_pos hid]

theorem parseMapEntry_of_some {pair v : Str} (h : entryCall pair = some v) :
    ∃ key, isIdentifier key ∧
      ∀ value, parseMapEntry value pair = value v >>= fun p => .ok (key, p) := by
  rw [entryCall, Option.bind_eq_some_iff] at h
  obtain ⟨kv, hs, h⟩ := h
  split_ifs at h with hid
  obtain rfl := Option.some.inj h
  exact ⟨trim kv.1, hid, parseMapEntry_of_split hs hid⟩

theorem returns_collect_parseMapEntry (value : Str → Res PatternParseError Pattern)
    (pairs : List Str) :
    (collect (parseMapEntry value) pairs).Returns ↔ ReturnsEach value (entryCalls pairs) := by
  rw [returns_collect]
  induction pairs with
  | nil => simp [ReturnsEach, entryCalls]
  | cons pair pairs ih =>
    rw [ReturnsEach, entryCalls]
    cases hcall : entryCall pair with
    | none =>
      obtain ⟨e, he⟩ := parseMapEntry_of_none hcall
      simp [he value, ReturnsEach]
    | some v =>
      obtain ⟨key, -, hkey⟩ := parseMapEntry_of_some hcall
      rw [hkey value, ReturnsEach, ih]
      cases value v <;> simp

theorem collect_parseMapEntry_congr {f g : Str → Res PatternParseError Pattern}
    {pairs : List Str} (h : ∀ v ∈ entryCalls pairs, f v = g v) :
    collect (parseMapEntry f) pairs = collect (parseMapEntry g) pairs := by
  induction pairs with
  | nil => rfl
  | cons pair pairs ih =>
    rw [entryCalls] at h
    rw [collect_cons, collect_cons]
    cases hcall : entryCall pair with
    | none =>
      obtain ⟨e, he⟩ := parseMapEntry_of_none hcall
      rw [he f, he g, err_bind, err_bind]
    | some v =>
      rw [hcall] at h
      obtain ⟨key, -, hkey⟩ := parseMapEntry_of_some hcall
      rw [hkey f, hkey g, h v (by simp), ih fun w hw => h w (by simp [hw])]

theorem parseMapPattern_eq (value : Str → Res PatternParseError Pattern) (m : Str) :
    parseMapPattern value ('{' :: m ++ ['}']) =
      splitTopLevel (trim m) ',' >>= fun pairs =>
        collect (parseMapEntry value) pairs >>= fun fs => .ok (.map fs) := by
  have hslice : (slice ('{' :: m ++ ['}']) 1 (byteLen ('{' :: m ++ ['}']) - 1) :
      Res PatternParseError Str) = .ok m := slice_bracketed rfl rfl m
  rw [parseMapPattern, hslice, ok_bind]
  cases hempty : (trim m).isEmpty with
  | true =>
    rw [List.isEmpty_iff.mp hempty]
    rfl
  | false => simp only [hempty, Bool.false_eq_true, if_false]

/-- The value that makes `&trimmed[1..trimmed.len() - 1]` a slice that ends before it starts. -/
def LoneQuote (input : Str) : Prop := trim input = ['"'] ∨ trim input = ['\'']

theorem parseValue_of_loneQuote {input : Str} (h : LoneQuote input)
    (value : Str → Res PatternParseError Pattern) : parseValue value input = .panic .slice := by
  rcases h with h | h <;> simp only [parseValue, h] <;> rfl

theorem parseI64_cons_none {c : Char} (hc : isDigit c = false) (hneg : c ≠ '-') (hpos : c ≠ '+')
    (s : Str) : parseI64 (c :: s) = none := by
  have hsign : splitSign (c :: s) = (false, c :: s) := by
    unfold splitSign
    split <;> simp_all
  simp [parseI64, hsign, hc]

theorem not_early {c : Char} (hc : c ∉ ['*', '_', ':', '"', '\'', 't', 'f']) (s : Str) :
    ¬(c :: s = ['*'] ∨ c :: s = ['_']) ∧
      (startsWith (c :: s) ':' && endsWith (c :: s) ':' && decide (3 ≤ byteLen (c :: s))) = false ∧
      (startsWith (c :: s) '"' && endsWith (c :: s) '"'
        || startsWith (c :: s) '\'' && endsWith (c :: s) '\'') = false ∧
      c :: s ≠ "true".toList ∧ c :: s ≠ "false".toList := by
  simp only [List.mem_cons, List.not_mem_nil, or_false, not_or] at hc
  simp [hc]

theorem parseValue_of_head {input s : Str} {c : Char} (h : trim input = c :: s)
    (hc : c = '[' ∨ c = '{') (value : Str → Res PatternParseError Pattern) :
    parseValue value input =
      if startsWith (c :: s) '[' && endsWith (c :: s) ']' then parseListPattern value (c :: s)
      else if startsWith (c :: s) '{' && endsWith (c :: s) '}' then parseMapPattern value (c :: s)
      else
        .err (parseErr
          "bare words not allowed — use :enum:, \"string\", $var, or *".toList input) := by
  have hnum : parseI64 (c :: s) = none := by
    rcases hc with rfl | rfl <;> exact parseI64_cons_none rfl (by decide) (by decide) s
  have hdollar : stripPrefix '$' (c :: s) = none := by
    rcases hc with rfl | rfl <;> rfl
  have hcaret : stripPrefix '^' (c :: s) = none := by
    rcases hc with rfl | rfl <;> rfl
  have hlate : c ∉ ['*', '_', ':', '"', '\'', 't', 'f'] := by
    rcases hc with rfl | rfl <;> decide
  obtain ⟨hwild, henum, hquote, htrue, hfalse⟩ := not_early hlate s
  simp only [parseValue, h, List.isEmpty_cons, Bool.false_eq_true, if_false, if_neg hwild,
    henum, hquote, if_neg htrue, if_neg hfalse, hnum, hdollar, hcaret]

theorem parseValue_bracketed {input m : Str} (h : trim input = '[' :: m ++ [']'])
    (value : Str → Res PatternParseError Pattern) :
    parseValue value input = parseListPattern value ('[' :: m ++ [']']) := by
  have hend : endsWith ('[' :: m ++ [']']) ']' = true := by rw [endsWith_concat]; rfl
  have hvalue := parseValue_of_head (s := m ++ [']']) h (.inl rfl) value
  rw [← List.cons_append, hend] at hvalue
  simpa using hvalue

theorem parseValue_braced {input m : Str} (h : trim input = '{' :: m ++ ['}'])
    (value : Str → Res PatternParseError Pattern) :
    parseValue value input = parseMapPattern value ('{' :: m ++ ['}']) := by
  have hend : endsWith ('{' :: m ++ ['}']) '}' = true := by rw [endsWith_concat]; rfl
  have hvalue := parseValue_of_head (s := m ++ ['}']) h (.inr rfl) value
  rw [← List.cons_append, hend] at hvalue
  simpa using hvalue

theorem returns_parseName (make : Str → Pattern) (message name input : Str) :
    (parseName make message name input).Returns := by
  simp only [parseName]
  split_ifs <;> simp

theorem parseValue_flat {input : Str} (hq : ¬LoneQuote input)
    (hl : (startsWith (trim input) '[' && endsWith (trim input) ']') = false)
    (hm : (startsWith (trim input) '{' && endsWith (trim input) '}') = false) :
    ∃ r : Res PatternParseError Pattern, r.Returns ∧ ∀ value, parseValue value input = r := by
  have sliced : ∀ {a : Char}, a.utf8Size = 1 → startsWith (trim input) a →
      endsWith (trim input) a → trim input ≠ [a] →
      ∃ m, (slice (trim input) 1 (byteLen (trim input) - 1) : Res PatternParseError Str) =
        .ok m := by
    intro a ha hs he hne
    obtain ⟨m, hm⟩ := eq_bracketed hs he hne
    exact ⟨m, by rw [hm]; exact slice_bracketed ha ha m⟩
  refine ⟨parseValue (fun _ => .err ⟨[], []⟩) input, ?_, fun value => ?_⟩
  · simp only [parseValue, hl, hm, Bool.false_eq_true, if_false]
    split_ifs with hempty hwild henum hquote htrue hfalse
    · exact returns_err _
    · exact returns_ok _
    · obtain ⟨⟨hs, he⟩, hlen⟩ : (startsWith (trim input) ':' ∧ endsWith (trim input) ':') ∧
          3 ≤ byteLen (trim input) := by simpa using henum
      obtain ⟨m, hslice⟩ := sliced rfl hs he fun h => by
        rw [h] at hlen
        exact absurd hlen (by decide)
      rw [hslice, ok_bind]
      split_ifs <;> simp
    · obtain ⟨m, hslice⟩ : ∃ m, (slice (trim input) 1 (byteLen (trim input) - 1) :
          Res PatternParseError Str) = .ok m := by
        simp only [Bool.or_eq_true, Bool.and_eq_true] at hquote
        rcases hquote with ⟨hs, he⟩ | ⟨hs, he⟩
        · exact sliced rfl hs he fun h => hq (.inl h)
        · exact sliced rfl hs he fun h => hq (.inr h)
      rw [hslice, ok_bind]
      exact returns_ok _
    · exact returns_ok _
    · exact returns_ok _
    · split
      · exact returns_ok _
      · exact returns_parseName _ _ _ _
      · exact returns_parseName _ _ _ _
      · exact returns_err _
  · simp only [parseValue, hl, hm, Bool.false_eq_true, if_false]

theorem returns_parseValue (value : Str → Res PatternParseError Pattern) (input : Str) :
    (parseValue value input).Returns ↔
      ¬LoneQuote input ∧ Nests input ∧ ReturnsEach value (calls input) := by
  rw [← returns_scan]
  rcases shape input with ⟨m, hm⟩ | ⟨m, hm⟩ | ⟨hl, hb⟩
  · have hq : ¬LoneQuote input := by simp [LoneQuote, hm]
    rw [parseValue_bracketed hm, parseListPattern_eq, calls, scan, byForm_bracketed hm]
    cases listValues (trim m) with
    | ok r => simp [hq, returns_bind, returns_collect, toOption]
    | err e => simp [hq, toOption, ReturnsEach]
    | panic c => simp
  · have hq : ¬LoneQuote input := by simp [LoneQuote, hm]
    rw [parseValue_braced hm, parseMapPattern_eq, calls, scan, byForm_braced hm]
    cases splitTopLevel (trim m) ',' with
    | ok pairs => simp [hq, returns_bind, returns_collect_parseMapEntry, toOption]
    | err e => simp [hq, toOption, ReturnsEach]
    | panic c => simp
  · have hscan : scan input = .ok [] := by simp [scan, byForm, hl, hb]
    by_cases hq : LoneQuote input
    · simp [parseValue_of_loneQuote hq, hq]
    · obtain ⟨r, hr, heq⟩ := parseValue_flat hq hl hb
      simp [heq value, hr, hq, calls, hscan, toOption, ReturnsEach]

theorem parseValue_congr {f g : Str → Res PatternParseError Pattern} {input : Str}
    (h : ∀ v ∈ calls input, f v = g v) : parseValue f input = parseValue g input := by
  rcases shape input with ⟨m, hm⟩ | ⟨m, hm⟩ | ⟨hl, hb⟩
  · rw [calls, scan, byForm_bracketed hm] at h
    rw [parseValue_bracketed hm, parseValue_bracketed hm, parseListPattern_eq, parseListPattern_eq]
    cases hvalues : listValues (trim m) with
    | ok r =>
      rw [hvalues] at h
      have hcollect : collect f r.1 = collect g r.1 := collect_congr h
      rw [ok_bind, ok_bind, hcollect]
    | err e => rfl
    | panic c => rfl
  · rw [calls, scan, byForm_braced hm] at h
    rw [parseValue_braced hm, parseValue_braced hm, parseMapPattern_eq, parseMapPattern_eq]
    cases hpairs : splitTopLevel (trim m) ',' with
    | ok pairs =>
      rw [hpairs] at h
      have hcollect : collect (parseMapEntry f) pairs = collect (parseMapEntry g) pairs :=
        collect_parseMapEntry_congr h
      rw [ok_bind, ok_bind, hcollect]
    | err e => rfl
    | panic c => rfl
  · by_cases hq : LoneQuote input
    · rw [parseValue_of_loneQuote hq, parseValue_of_loneQuote hq]
    · obtain ⟨r, -, heq⟩ := parseValue_flat hq hl hb
      rw [heq f, heq g]

theorem parseWithin_eq {n m : Nat} {input : Str} (hn : byteLen input < n) (hm : byteLen input < m) :
    parseWithin n input = parseWithin m input := by
  induction n generalizing m input with
  | zero => omega
  | succ n ih =>
    obtain ⟨m, rfl⟩ : ∃ k, m = k + 1 := ⟨m - 1, by omega⟩
    refine parseValue_congr fun v hv => ?_
    have := byteLen_lt_of_mem_calls hv
    exact ih (by omega) (by omega)

theorem parsePatternValue_eq (input : Str) :
    parsePatternValue input = parseValue parsePatternValue input := by
  refine parseValue_congr fun v hv => ?_
  exact parseWithin_eq (byteLen_lt_of_mem_calls hv) (Nat.lt_succ_self _)

/-- `Meets input value`: parsing `input` comes to a call on `value`, the calls before it in the
same list or map having succeeded. -/
inductive Meets : Str → Str → Prop
  | here {input} : Meets input input
  | call {input pre v post value} : calls input = pre ++ v :: post →
      (∀ u ∈ pre, ∃ p, parsePatternValue u = .ok p) → Meets v value → Meets input value

def Readable (value : Str) : Prop := ¬LoneQuote value ∧ Nests value

theorem returns_parsePatternValue (input : Str) :
    (parsePatternValue input).Returns ↔ ∀ value, Meets input value → Readable value := by
  rw [parsePatternValue_eq, returns_parseValue, returnsEach_iff]
  constructor
  · rintro ⟨hq, hnests, heach⟩ value hmeets
    cases hmeets with
    | here => exact ⟨hq, hnests⟩
    | @call _ _ v _ _ hcalls hpre hv =>
      have hmem : v ∈ calls input := by simp [hcalls]
      have := byteLen_lt_of_mem_calls hmem
      exact (returns_parsePatternValue _).mp (heach _ _ _ hcalls hpre) value hv
  · intro h
    obtain ⟨hq, hnests⟩ := h input .here
    refine ⟨hq, hnests, fun pre v post hcalls hpre => ?_⟩
    have hmem : v ∈ calls input := by simp [hcalls]
    have := byteLen_lt_of_mem_calls hmem
    exact (returns_parsePatternValue v).mpr fun value hv => h value (.call hcalls hpre hv)
termination_by byteLen input

end Luaml.Pattern
