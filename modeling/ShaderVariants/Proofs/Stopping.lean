import ShaderVariants.Proofs.Grammar

/-! # Where reading stops

A reader takes whole productions. Where it fails, what it has taken is the start of a production, so
the fault lies with the token that it stops at; and of what follows it has seen that token and no
more (`Exact`). An entry therefore fails at the first token with which no entry can go on
(`Entry.stops`), however the text continues. -/
namespace ShaderVariants.Schedule

namespace Reader
variable {α β : Type} {P : List Token → α → Prop} {Q : List Token → β → Prop} {r : Reader α}

/-- What the reader takes is a production, and where it fails the start of one. It does the same in
front of all rests that begin alike. -/
def Exact (r : Reader α) (P : List Token → α → Prop) : Prop := ∀ tokens,
  match r tokens with
  | .ok (a, rest) => ∃ ts, tokens = ts ++ rest ∧ P ts a ∧
      ∀ rest', rest'.head? = rest.head? → r (ts ++ rest') = .ok (a, rest')
  | .error missing => ∃ ts, tokens = ts ++ missing.rest ∧ (∃ us a, P (ts ++ us) a) ∧
      ∀ rest', rest'.head? = missing.rest.head? → r (ts ++ rest') = .error ⟨missing.expected, rest'⟩

theorem head?_append_congr {ts rest rest' : List Token} (h : rest'.head? = rest.head?) :
    (ts ++ rest').head? = (ts ++ rest).head? := by
  cases ts with
  | nil => exact h
  | cons t ts => rfl

/-- There is something to read. -/
theorem Exact.inhabited (h : Exact r P) : ∃ us a, P us a := by
  have hempty := h []
  cases hc : r [] with
  | ok p =>
    simp only [hc] at hempty
    obtain ⟨ts, _, hts, _⟩ := hempty
    exact ⟨ts, p.1, hts⟩
  | error missing =>
    simp only [hc] at hempty
    obtain ⟨ts, _, ⟨us, a, hus⟩, _⟩ := hempty
    exact ⟨ts ++ us, a, hus⟩

theorem exact_pure {a : α} (h : P [] a) : Exact (pure a) P := by
  intro tokens
  exact ⟨[], rfl, h, fun _ _ => rfl⟩

theorem bind_error {f : α → Reader β} {tokens : List Token} {missing : Missing}
    (h : r tokens = .error missing) : (r >>= f) tokens = .error missing := by
  show (r tokens).bind (fun p => f p.1 p.2) = _
  rw [h]
  rfl

/-- The tokens of the first reader stand before those of the second. -/
theorem Exact.bind {f : α → Reader β} (hr : Exact r P)
    (hf : ∀ ts a, P ts a → Exact (f a) fun us b => Q (ts ++ us) b) : Exact (r >>= f) Q := by
  intro tokens
  have hfirst := hr tokens
  cases hc : r tokens with
  | error missing =>
    simp only [hc] at hfirst
    obtain ⟨ts, htokens, ⟨us, a, hus⟩, hsame⟩ := hfirst
    obtain ⟨vs, b, hvs⟩ := (hf _ a hus).inhabited
    rw [bind_error hc]
    refine ⟨ts, htokens, ⟨us ++ vs, b, ?_⟩, fun rest' hrest' => bind_error (hsame rest' hrest')⟩
    rwa [← List.append_assoc]
  | ok p =>
    obtain ⟨a, middle⟩ := p
    simp only [hc] at hfirst
    obtain ⟨ts, rfl, hts, hsame⟩ := hfirst
    have hsecond := hf ts a hts middle
    rw [bind_ok hc]
    cases hd : f a middle with
    | error missing =>
      simp only [hd] at hsecond
      obtain ⟨us, rfl, ⟨vs, b, hvs⟩, hsame'⟩ := hsecond
      refine ⟨ts ++ us, (List.append_assoc ..).symm, ⟨vs, b, ?_⟩, fun rest' hrest' => ?_⟩
      · rwa [List.append_assoc]
      · rw [List.append_assoc, bind_ok (hsame _ (head?_append_congr hrest')), hsame' rest' hrest']
    | ok q =>
      simp only [hd] at hsecond
      obtain ⟨us, rfl, hus, hsame'⟩ := hsecond
      refine ⟨ts ++ us, (List.append_assoc ..).symm, hus, fun rest' hrest' => ?_⟩
      rw [List.append_assoc, bind_ok (hsame _ (head?_append_congr hrest')), hsame' rest' hrest']

theorem exact_token (accept : Token → Bool) (sample : Token) (h : accept sample = true)
    (expected : String) :
    Exact (token accept expected) fun ts t => ts = [t] ∧ accept t = true := by
  intro tokens
  cases tokens with
  | nil =>
    refine ⟨[], rfl, ⟨[sample], sample, rfl, h⟩, fun rest' hrest' => ?_⟩
    rw [List.head?_eq_none_iff.mp hrest']
    rfl
  | cons t rest =>
    by_cases ht : accept t = true
    · rw [token_ok ht]
      exact ⟨[t], rfl, ⟨rfl, ht⟩, fun rest' _ => token_ok ht expected rest'⟩
    · have hfail (rest : List Token) :
          token accept expected (t :: rest) = .error ⟨expected, t :: rest⟩ := if_neg ht
      rw [hfail]
      refine ⟨[], rfl, ⟨[sample], sample, rfl, h⟩, fun rest' hrest' => ?_⟩
      obtain ⟨rest', rfl⟩ := List.head?_eq_some_iff.mp hrest'
      exact hfail rest'

theorem exact_kind (k : Token.Kind) (expected : String) :
    Exact (kind k expected) fun ts t => ts = [t] ∧ t.kind = k := by
  have h := exact_token (·.kind == k) ⟨k, "", {}⟩ (by simp) expected
  simp only [beq_iff_eq] at h
  exact h

theorem exact_nameToken (expected : String) :
    Exact (token Token.isName expected) fun ts t => ts = [t] ∧ t.isName = true :=
  exact_token Token.isName ⟨.identifier, "", {}⟩ rfl expected

theorem exact_name (expected : String) : Exact (name expected) IsName := by
  show Exact (token Token.isName expected >>= fun t => pure t.lexeme) IsName
  refine (exact_nameToken expected).bind ?_
  rintro _ t ⟨rfl, ht⟩
  exact exact_pure (.name ht)

/-- Looking ahead takes nothing and sees one token. -/
theorem Exact.ahead {k : Token.Kind} {f : Bool → Reader β} (hf : ∀ b, Exact (f b) Q) :
    Exact (nextIs k >>= f) Q := by
  intro tokens
  have hseen (tokens : List Token) :
      (nextIs k >>= f) tokens = f (tokens.head?.any (·.kind == k)) tokens := rfl
  have h := hf (tokens.head?.any (·.kind == k)) tokens
  rw [hseen]
  cases hc : f (tokens.head?.any (·.kind == k)) tokens with
  | error missing =>
    simp only [hc] at h
    obtain ⟨ts, htokens, hts, hsame⟩ := h
    refine ⟨ts, htokens, hts, fun rest' hrest' => ?_⟩
    rw [hseen, head?_append_congr hrest', ← htokens, hsame rest' hrest']
  | ok p =>
    simp only [hc] at h
    obtain ⟨ts, htokens, hts, hsame⟩ := h
    refine ⟨ts, htokens, hts, fun rest' hrest' => ?_⟩
    rw [hseen, head?_append_congr hrest', ← htokens, hsame rest' hrest']

theorem more_error {separator : Token.Kind} {item : Reader α} {t : Token} {rest : List Token}
    {missing : Missing} (ht : t.kind = separator) (h : item rest = .error missing) :
    more separator item (t :: rest) = .error missing := by
  rw [more, if_pos ht, h]

theorem more_cons {separator : Token.Kind} {item : Reader α} {t : Token} {ts rest : List Token}
    {a : α} (ht : t.kind = separator) (h : item (ts ++ rest) = .ok (a, rest)) :
    more separator item (t :: (ts ++ rest)) =
      (more separator item rest).map fun p => (a :: p.1, p.2) := by
  have hle : rest.length ≤ (ts ++ rest).length := by simp
  rw [more, if_pos ht, h]
  simp only [if_pos hle]
  cases more separator item rest <;> rfl

theorem exact_more {separator : Token.Kind} (hr : Exact r P) :
    Exact (more separator r) (Separated separator P) := by
  intro tokens
  fun_induction more separator r tokens with
  | case1 =>
    refine ⟨[], rfl, .nil, fun rest' hrest' => ?_⟩
    rw [List.head?_eq_none_iff.mp hrest', List.append_nil, more]
  | case2 t rest ht missing hc =>
    have h := hr rest
    simp only [hc] at h
    obtain ⟨ts, hrest, ⟨us, a, hus⟩, hsame⟩ := h
    refine ⟨t :: ts, by rw [hrest, List.cons_append], ⟨us, [a], ?_⟩, fun rest' hrest' => ?_⟩
    · have hone := Separated.cons ht hus Separated.nil
      rwa [List.append_nil] at hone
    · exact more_error ht (hsame rest' hrest')
  | case3 t rest ht a rest' hc hle missing hm ih =>
    have h := hr rest
    simp only [hc] at h
    simp only [hm] at ih
    obtain ⟨ts, hrest, hts, hsame⟩ := h
    obtain ⟨us, hrest', ⟨vs, as, hvs⟩, hsame'⟩ := ih
    refine ⟨t :: (ts ++ us), ?_, ⟨vs, a :: as, ?_⟩, fun rest'' hrest'' => ?_⟩
    · rw [hrest, hrest', List.cons_append, List.append_assoc]
    · rw [List.cons_append, List.append_assoc]
      exact .cons ht hts hvs
    · have hitem := hsame (us ++ rest'') (by rw [hrest']; exact head?_append_congr hrest'')
      rw [List.cons_append, List.append_assoc, more_cons ht hitem, hsame' rest'' hrest'']
      rfl
  | case4 t rest ht a rest' hc hle as rest'' hm ih =>
    have h := hr rest
    simp only [hc] at h
    simp only [hm] at ih
    obtain ⟨ts, hrest, hts, hsame⟩ := h
    obtain ⟨us, hrest', hus, hsame'⟩ := ih
    refine ⟨t :: (ts ++ us), ?_, .cons ht hts hus, fun after hafter => ?_⟩
    · rw [hrest, hrest', List.cons_append, List.append_assoc]
    · have hitem := hsame (us ++ after) (by rw [hrest']; exact head?_append_congr hafter)
      rw [List.cons_append, List.append_assoc, more_cons ht hitem, hsame' after hafter]
      rfl
  | case5 t rest ht a rest' hc hle =>
    -- a reader that takes productions adds no tokens
    have h := hr rest
    simp only [hc] at h
    obtain ⟨ts, hrest, _⟩ := h
    rw [hrest, List.length_append] at hle
    omega
  | case6 t rest ht =>
    refine ⟨[], rfl, .nil, fun rest' hrest' => more_stop ?_ r⟩
    intro u hu
    rw [List.nil_append, hrest'] at hu
    cases hu
    exact ht

end Reader

namespace Entry
open Reader

theorem exact_readChoice : Exact readChoice IsChoice := by
  refine (exact_name _).bind ?_
  intro ts first hfirst
  refine (exact_more (exact_name _)).bind ?_
  intro us others hus
  cases hfirst with
  | name ht =>
    refine exact_pure ?_
    rw [List.append_nil]
    exact .segments ht hus

theorem exact_readSelection : Exact readSelection IsSelection := by
  refine (exact_nameToken _).bind ?_
  rintro _ w ⟨rfl, hw⟩
  refine .ahead fun colon => ?_
  cases colon with
  | true =>
    refine (exact_kind _ _).bind ?_
    rintro _ c ⟨rfl, hc⟩
    refine (exact_nameToken _).bind ?_
    rintro _ a ⟨rfl, ha⟩
    exact exact_pure (.alternate hw hc ha)
  | false => exact exact_pure (.world hw)

theorem exact_readAttribute : Exact readAttribute IsAttribute := by
  refine (exact_name _).bind ?_
  intro ts key hkey
  refine (exact_kind _ _).bind ?_
  rintro _ e ⟨rfl, he⟩
  refine (exact_kind _ _).bind ?_
  rintro _ v ⟨rfl, hv⟩
  cases hkey with
  | name hk => exact exact_pure (.pair hk he hv)

theorem exact_readAttributeList : Exact readAttributeList IsAttributes := by
  refine .ahead fun closed => ?_
  cases closed with
  | true => exact exact_pure .none
  | false =>
    refine exact_readAttribute.bind ?_
    intro ts first hfirst
    refine (exact_more exact_readAttribute).bind ?_
    intro us others hus
    refine exact_pure ?_
    rw [List.append_nil]
    exact .some hfirst hus

theorem exact_readSelections : Exact readSelections IsEntry := by
  refine exact_readChoice.bind ?_
  intro ts choice hts
  refine (exact_kind _ _).bind ?_
  rintro _ e ⟨rfl, he⟩
  refine exact_readSelection.bind ?_
  intro ss first hss
  refine (exact_more exact_readSelection).bind ?_
  intro us others hus
  refine (exact_kind _ _).bind ?_
  rintro _ z ⟨rfl, hz⟩
  exact exact_pure (.choice hts he hss hus hz)

theorem exact_readAttributes : Exact readAttributes IsEntry := by
  refine (exact_kind _ _).bind ?_
  rintro _ k ⟨rfl, hk⟩
  refine exact_readChoice.bind ?_
  intro ts choice hts
  refine (exact_kind _ _).bind ?_
  rintro _ l ⟨rfl, hl⟩
  refine exact_readAttributeList.bind ?_
  intro us attributes hus
  refine (exact_kind _ _).bind ?_
  rintro _ r ⟨rfl, hr⟩
  refine (exact_kind _ _).bind ?_
  rintro _ z ⟨rfl, hz⟩
  exact exact_pure (.attrib hk hts hl hus hr hz)

/-! ## Which kind of entry is read -/

theorem startsAttributes_kind {t : Token} {rest : List Token}
    (h : startsAttributes (t :: rest) = true) : t.kind = .attrib := by
  cases rest <;> simp_all [startsAttributes]

/-- Behind the first token, the next one decides. -/
theorem startsAttributes_congr {ts rest rest' : List Token} (hts : ts ≠ [])
    (h : rest'.head? = rest.head?) :
    startsAttributes (ts ++ rest') = startsAttributes (ts ++ rest) := by
  match ts, hts with
  | [t], _ =>
    cases rest with
    | nil => rw [List.head?_eq_none_iff.mp h]
    | cons u rest =>
      obtain ⟨rest', rfl⟩ := List.head?_eq_some_iff.mp h
      rfl
  | t :: u :: ts, _ => rfl

/-- The reader of one kind of entry. -/
def readAs (attributes : Bool) : Reader Entry :=
  if attributes then readAttributes else readSelections

theorem read_eq (tokens : List Token) : read tokens = readAs (startsAttributes tokens) tokens := by
  unfold read readAs
  split <;> rfl

theorem exact_readAs (attributes : Bool) : Exact (readAs attributes) IsEntry := by
  cases attributes with
  | true => exact exact_readAttributes
  | false => exact exact_readSelections

/-- Entries of both kinds can start with the keyword. -/
theorem readAs_keyword (attributes : Bool) {t : Token} (ht : t.kind = .attrib) :
    ∃ rest entry, readAs attributes (t :: rest) = .ok (entry, []) := by
  have hname : t.isName = true := by simp [Token.isName, ht]
  cases attributes with
  | true =>
    exact ⟨_, _, readAttributes_ok (l := ⟨.leftParen, "", {}⟩) (r := ⟨.rightParen, "", {}⟩)
      (z := ⟨.semicolon, "", {}⟩) ht (.segments hname .nil) rfl .none rfl rfl⟩
  | false =>
    exact ⟨_, _, readSelections_ok (e := ⟨.equal, "", {}⟩) (z := ⟨.semicolon, "", {}⟩)
      (.segments hname .nil) rfl (.world hname) .nil rfl⟩

/-- A token that no entry of the kind in question starts with is not the keyword. -/
theorem not_startsAttributes_of_fails {attributes : Bool} {tokens : List Token}
    (hfails : ∀ rest, rest.head? = tokens.head? →
      ∃ missing, readAs attributes rest = .error missing) : startsAttributes tokens = false := by
  cases htokens : tokens with
  | nil => rfl
  | cons t rest =>
    refine Bool.eq_false_iff.mpr fun hstarts => ?_
    obtain ⟨rest', entry, hok⟩ := readAs_keyword attributes (startsAttributes_kind hstarts)
    obtain ⟨missing, herror⟩ := hfails (t :: rest') (by rw [htokens]; rfl)
    rw [hok] at herror
    cases herror

theorem exact_read : Exact read IsEntry := by
  intro tokens
  have h := exact_readAs (startsAttributes tokens) tokens
  rw [read_eq]
  cases hc : readAs (startsAttributes tokens) tokens with
  | ok p =>
    simp only [hc] at h
    obtain ⟨ts, htokens, hts, hsame⟩ := h
    have hne : ts ≠ [] := by
      obtain ⟨us, z, rfl, _⟩ := hts.ended
      simp
    refine ⟨ts, htokens, hts, fun rest' hrest' => ?_⟩
    rw [read_eq, startsAttributes_congr hne hrest', ← htokens, hsame rest' hrest']
  | error missing =>
    simp only [hc] at h
    obtain ⟨ts, htokens, hts, hsame⟩ := h
    refine ⟨ts, htokens, hts, fun rest' hrest' => ?_⟩
    have hkind : startsAttributes (ts ++ rest') = startsAttributes tokens := by
      by_cases hne : ts = []
      · subst hne
        rw [List.nil_append] at htokens ⊢
        have hfails (rest : List Token) (hrest : rest.head? = tokens.head?) :
            ∃ m, readAs (startsAttributes tokens) rest = .error m :=
          ⟨_, hsame rest (htokens ▸ hrest)⟩
        rw [← htokens] at hrest'
        rw [not_startsAttributes_of_fails fun rest hrest => hfails rest (hrest.trans hrest'),
          not_startsAttributes_of_fails hfails]
      · rw [startsAttributes_congr hne hrest', ← htokens]
    rw [read_eq, hkind, hsame rest' hrest']

end Entry

/-- The tokens are the start of an entry. -/
def StartsEntry (ts : List Token) : Prop := ∃ us entry, IsEntry (ts ++ us) entry

/-- What an entry starts with lacks something of it, at least the semicolon. -/
theorem StartsEntry.inner {ts : List Token} (h : StartsEntry ts)
    (hpartial : ∀ entry, ¬ IsEntry ts entry) : Inner ts := by
  obtain ⟨us, entry, hentry⟩ := h
  rcases List.eq_nil_or_concat us with rfl | ⟨us, z, rfl⟩
  · rw [List.append_nil] at hentry
    exact absurd hentry (hpartial entry)
  · obtain ⟨vs, z', hsplit, hvs, _⟩ := hentry.ended
    rw [List.concat_eq_append, ← List.append_assoc] at hsplit
    obtain ⟨rfl, _⟩ := List.append_inj' hsplit rfl
    exact (List.forall_mem_append.mp hvs).1

/-- Where reading stops: the tokens taken are the start of an entry but no whole one, and no entry
goes on with the next. -/
structure Stops (ts rest : List Token) : Prop where
  starts : StartsEntry ts
  whole : ∀ entry, ¬ IsEntry ts entry
  next : ∀ t ∈ rest.head?, ¬ StartsEntry (ts ++ [t])

theorem Entry.stops {tokens : List Token} {missing : Missing}
    (h : Entry.read tokens = .error missing) :
    ∃ ts, tokens = ts ++ missing.rest ∧ Stops ts missing.rest := by
  have hexact := Entry.exact_read tokens
  simp only [h] at hexact
  obtain ⟨ts, htokens, hts, hsame⟩ := hexact
  refine ⟨ts, htokens, hts, fun entry hentry => ?_, fun t ht hstarts => ?_⟩
  · have hok := Entry.read_of_isEntry hentry missing.rest
    rw [← htokens, h] at hok
    cases hok
  · obtain ⟨us, entry, hentry⟩ := hstarts
    have hok := Entry.read_of_isEntry hentry []
    have hfail := hsame (t :: us) (Option.mem_def.mp ht).symm
    rw [List.append_nil, List.append_assoc, List.singleton_append, hfail] at hok
    cases hok

end ShaderVariants.Schedule
