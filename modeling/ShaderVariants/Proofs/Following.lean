import Mathlib.Data.Finset.Max
import Mathlib.Data.Finset.Option
import Mathlib.Data.List.Nodup
import Mathlib.Logic.Function.Iterate

/-! # Pointers that are followed in place

Slots have values, and a value may point to a slot. A pass goes through the slots in order and gives
each the value of the slot that it points to, as that is at the time. So a slot gets the final value
of an earlier slot and the former value of any other (`pass_apply_of_some`).

Passes come to an end even where pointers run in circles (`exists_pass_fixed`). What slots point to
after a pass is what a pointed-to slot pointed to before, so the pointed-to slots get fewer or the
pointers permute them (`Jumps.image_subset`). In the second case take the last slot that is moved.
Its successor is moved as well, so it was passed before, and after the pass both point to the same.
The next pass loses one of them (`Jumps.card_image_lt`). -/
namespace ShaderVariants.Following
variable {ι ν : Type} [DecidableEq ι] {target : ν → Option ι} {slots : List ι} {v : ι → ν} {s : ι}

/-- Give a slot the value of the slot that it points to, if it points to one. -/
def follow (target : ν → Option ι) (v : ι → ν) (s : ι) : ι → ν :=
  (target (v s)).elim v fun t => Function.update v s (v t)

/-- Follow the pointers of the slots, one after the other. -/
def pass (target : ν → Option ι) (slots : List ι) (v : ι → ν) : ι → ν :=
  slots.foldl (follow target) v

/-! ## What one pass does -/

theorem follow_of_none (h : target (v s) = none) : follow target v s = v := by
  rw [follow, h, Option.elim_none]

theorem follow_of_some {t : ι} (h : target (v s) = some t) :
    follow target v s = Function.update v s (v t) := by
  rw [follow, h, Option.elim_some]

theorem follow_apply_of_ne {x : ι} (h : x ≠ s) : follow target v s x = v x := by
  cases ht : target (v s) with
  | none => rw [follow_of_none ht]
  | some t => rw [follow_of_some ht, Function.update_of_ne h]

theorem pass_apply_of_not_mem {x : ι} (h : x ∉ slots) : pass target slots v x = v x := by
  induction slots generalizing v with
  | nil => rfl
  | cons s rest ih =>
    obtain ⟨hne, hrest⟩ := not_or.mp (fun hm => h (List.mem_cons.mpr hm))
    exact (ih hrest).trans (follow_apply_of_ne hne)

theorem pass_append (before after : List ι) (v : ι → ν) :
    pass target (before ++ after) v = pass target after (pass target before v) :=
  List.foldl_append

/-- Nothing but its own turn changes a slot. -/
theorem pass_apply_at {before after : List ι} (hnodup : (before ++ s :: after).Nodup) :
    pass target (before ++ s :: after) v s = follow target (pass target before v) s s := by
  have hlater := (List.nodup_cons.mp (List.nodup_append.mp hnodup).2.1).1
  rw [pass_append]
  exact pass_apply_of_not_mem hlater

theorem pass_apply_of_none (hnodup : slots.Nodup) (h : target (v s) = none) :
    pass target slots v s = v s := by
  by_cases hs : s ∈ slots
  · obtain ⟨before, after, rfl, hnew⟩ := List.eq_append_cons_of_mem hs
    have hturn : pass target before v s = v s := pass_apply_of_not_mem hnew
    rw [pass_apply_at hnodup, follow_of_none (by rw [hturn, h]), hturn]
  · exact pass_apply_of_not_mem hs

/-- A slot gets what the slot that it points to has by then. -/
theorem pass_apply_of_some (hnodup : slots.Nodup) (hs : s ∈ slots) {t : ι}
    (h : target (v s) = some t) : pass target slots v s =
      if slots.idxOf t < slots.idxOf s then pass target slots v t else v t := by
  obtain ⟨before, after, rfl, hnew⟩ := List.eq_append_cons_of_mem hs
  have hturn : pass target before v s = v s := pass_apply_of_not_mem hnew
  rw [pass_apply_at hnodup, follow_of_some (by rw [hturn, h]), Function.update_self,
    List.idxOf_append_of_notMem hnew, List.idxOf_cons_self, Nat.add_zero]
  by_cases hmem : t ∈ before
  · have hlt : (before ++ s :: after).idxOf t < before.length := by
      rw [List.idxOf_append_of_mem hmem]
      exact List.idxOf_lt_length_of_mem hmem
    have hlater : t ∉ s :: after := fun hm => (List.nodup_append.mp hnodup).2.2 t hmem t hm rfl
    rw [if_pos hlt, pass_append, pass_apply_of_not_mem hlater]
  · have hge : ¬ (before ++ s :: after).idxOf t < before.length := by
      rw [List.idxOf_append_of_notMem hmem]
      omega
    rw [if_neg hge, pass_apply_of_not_mem hmem]

/-- Slots that do not point anywhere can be left out. -/
theorem pass_filter {p : ι → Bool} (hnodup : slots.Nodup)
    (h : ∀ s ∈ slots, p s = false → target (v s) = none) :
    pass target (slots.filter p) v = pass target slots v := by
  induction slots generalizing v with
  | nil => rfl
  | cons s rest ih =>
    obtain ⟨hnew, hrest⟩ := List.nodup_cons.mp hnodup
    -- the others have their values still when it was the turn of the first
    have hstill : ∀ x ∈ rest, p x = false → target (follow target v s x) = none := by
      intro x hx hp
      have hne : x ≠ s := fun he => hnew (he ▸ hx)
      rw [follow_apply_of_ne hne]
      exact h x (List.mem_cons_of_mem s hx) hp
    cases hp : p s with
    | true =>
      rw [List.filter_cons_of_pos hp]
      exact ih hrest hstill
    | false =>
      have hnone := h s List.mem_cons_self hp
      rw [List.filter_cons_of_neg (by simp [hp])]
      refine (ih hrest fun x hx => h x (List.mem_cons_of_mem s hx)).trans ?_
      show _ = pass target rest (follow target v s)
      rw [follow_of_none hnone]

/-! ## Pointers that jump -/

section Jumps
variable {α : Type} {rank : α → Nat} {A : Finset α} {f g h : α → α}

/-- After a pass every pointer goes one step further: from where an earlier element points to by
then, or from where any other one pointed to. -/
structure Jumps (rank : α → Nat) (A : Finset α) (f g : α → α) : Prop where
  closed : ∀ x ∈ A, f x ∈ A
  jump : ∀ x ∈ A, g x = if rank (f x) < rank x then g (f x) else f (f x)

variable [DecidableEq α]

theorem Jumps.image_subset (hjump : Jumps rank A f g) : A.image g ⊆ (A.image f).image f := by
  have hreach : ∀ x ∈ A, g x ∈ (A.image f).image f := by
    intro x hx
    induction hr : rank x using Nat.strongRecOn generalizing x with
    | ind r ih =>
      rw [hjump.jump x hx]
      split
      · rename_i hlt
        exact ih _ (hr ▸ hlt) (f x) (hjump.closed x hx) rfl
      · exact Finset.mem_image_of_mem f (Finset.mem_image_of_mem f hx)
  exact Finset.image_subset_iff.mpr hreach

/-- Two passes over pointers that are not at an end yet leave fewer elements to point to. -/
theorem Jumps.card_image_lt (hrank : Set.InjOn rank A) (hfg : Jumps rank A f g)
    (hgh : Jumps rank A g h) (hmoves : ∃ x ∈ A, f (f x) ≠ f x) :
    (A.image h).card < (A.image f).card := by
  by_contra hle
  have hhg := Finset.card_le_card hgh.image_subset
  have hgf := Finset.card_le_card hfg.image_subset
  have hgg : ((A.image g).image g).card ≤ (A.image g).card := Finset.card_image_le
  have hff : ((A.image f).image f).card ≤ (A.image f).card := Finset.card_image_le
  -- so nothing is lost on the way, and both passes permute the elements that are pointed to
  have hsub : A.image f ⊆ A := Finset.image_subset_iff.mpr hfg.closed
  have hinjf : Set.InjOn f (A.image f) := Finset.card_image_iff.mp (by omega)
  have hinjg : Set.InjOn g (A.image g) := Finset.card_image_iff.mp (by omega)
  have hsame : A.image g = A.image f :=
    Finset.eq_of_subset_of_card_le
      (hfg.image_subset.trans (Finset.image_subset_image hsub)) (by omega)
  rw [hsame] at hinjg
  have hmoved : ((A.image f).filter fun p => f p ≠ p).Nonempty := by
    obtain ⟨x, hx, hne⟩ := hmoves
    exact ⟨f x, Finset.mem_filter.mpr ⟨Finset.mem_image_of_mem f hx, hne⟩⟩
  obtain ⟨z, hz, hlast⟩ := Finset.exists_max_image _ rank hmoved
  obtain ⟨hzf, hne⟩ := Finset.mem_filter.mp hz
  have hfz : f z ∈ A.image f := Finset.mem_image_of_mem f (hsub hzf)
  have hnext : f z ∈ (A.image f).filter fun p => f p ≠ p :=
    Finset.mem_filter.mpr ⟨hfz, fun heq => hne (hinjf hfz hzf heq)⟩
  have hlt : rank (f z) < rank z :=
    lt_of_le_of_ne (hlast _ hnext) fun heq => hne (hrank (hsub hfz) (hsub hzf) heq)
  have hmeet : g z = g (f z) := by rw [hfg.jump z (hsub hzf), if_pos hlt]
  exact hne (hinjg hzf hfz hmeet).symm

/-- In a series of passes the pointers come to point to elements that point to themselves. -/
theorem exists_idempotent (hrank : Set.InjOn rank A) {F : Nat → α → α}
    (hF : ∀ k, Jumps rank A (F k) (F (k + 1))) : ∃ k, ∀ x ∈ A, F k (F k x) = F k x := by
  induction hn : (A.image (F 0)).card using Nat.strongRecOn generalizing F with
  | ind n ih =>
    by_cases hend : ∀ x ∈ A, F 0 (F 0 x) = F 0 x
    · exact ⟨0, hend⟩
    · have hmoves : ∃ x ∈ A, F 0 (F 0 x) ≠ F 0 x := by simpa using hend
      have hlt := Jumps.card_image_lt hrank (hF 0) (hF 1) hmoves
      obtain ⟨k, hk⟩ := ih _ (hn ▸ hlt) (fun k => hF (k + 2)) rfl
      exact ⟨k + 2, hk⟩

end Jumps

/-! ## Passes come to an end -/

/-- What the slots point to. -/
def points (target : ν → Option ι) (v : ι → ν) (x : Option ι) : Option ι :=
  x.bind fun s => target (v s)

/-- The place of a slot. -/
def rank (slots : List ι) (x : Option ι) : Nat := x.elim 0 fun s => slots.idxOf s + 1

theorem injOn_rank (slots : List ι) :
    Set.InjOn (rank slots) (Finset.insertNone slots.toFinset) := by
  intro x hx y hy hxy
  cases x with
  | none =>
    cases y with
    | none => rfl
    | some t => simp [rank] at hxy
  | some s =>
    have hs : s ∈ slots := by simpa using hx
    cases y with
    | none => simp [rank] at hxy
    | some t =>
      have hidx : slots.idxOf s = slots.idxOf t := Nat.succ.inj hxy
      rw [(List.idxOf_inj hs).mp hidx]

theorem jumps_pass (hnodup : slots.Nodup) (htarget : ∀ x t, target x = some t → t ∈ slots)
    (v : ι → ν) : Jumps (rank slots) (Finset.insertNone slots.toFinset) (points target v)
      (points target (pass target slots v)) where
  closed := by
    intro x _
    rw [Finset.mem_insertNone]
    intro t ht
    obtain ⟨s, _, hs⟩ := Option.bind_eq_some_iff.mp ht
    exact List.mem_toFinset.mpr (htarget _ t hs)
  jump := by
    intro x hx
    cases x with
    | none => simp [points]
    | some s =>
      have hs : s ∈ slots := by simpa using hx
      show target (pass target slots v s) = _
      cases ht : target (v s) with
      | none =>
        have hnone : points target v (some s) = none := ht
        rw [pass_apply_of_none hnodup ht, ht, hnone]
        simp [points]
      | some t =>
        have hsome : points target v (some s) = some t := ht
        rw [pass_apply_of_some hnodup hs ht, hsome]
        simp only [rank, Option.elim_some, Nat.add_lt_add_iff_right]
        split <;> rfl

/-- Where every slot that is pointed to points to itself, one pass is enough. -/
theorem pass_pass (hnodup : slots.Nodup)
    (h : ∀ s ∈ slots, ∀ t, target (v s) = some t → target (v t) = some t) :
    pass target slots (pass target slots v) = pass target slots v := by
  have hkeeps : ∀ w : ι → ν, ∀ t, target (w t) = some t → pass target slots w t = w t := by
    intro w t ht
    by_cases hmem : t ∈ slots
    · rw [pass_apply_of_some hnodup hmem ht, if_neg (Nat.lt_irrefl _)]
    · exact pass_apply_of_not_mem hmem
  funext s
  by_cases hs : s ∈ slots
  · cases ht : target (v s) with
    | none =>
      have hstill := pass_apply_of_none hnodup ht
      rw [pass_apply_of_none hnodup (by rw [hstill, ht])]
    | some t =>
      have hloop := h s hs t ht
      have ht' : pass target slots v t = v t := hkeeps v t hloop
      have hgets : pass target slots v s = v t := by
        rw [pass_apply_of_some hnodup hs ht, ht', ite_self]
      have hagain : pass target slots (pass target slots v) t = v t := by
        rw [hkeeps _ t (by rw [ht', hloop]), ht']
      rw [pass_apply_of_some hnodup hs (by rw [hgets, hloop]), hagain, ht', hgets, ite_self]
  · exact pass_apply_of_not_mem hs

/-- However the pointers run, some number of passes leaves nothing to change. -/
theorem exists_pass_fixed (hnodup : slots.Nodup) (htarget : ∀ x t, target x = some t → t ∈ slots)
    (v : ι → ν) :
    ∃ k, pass target slots ((pass target slots)^[k] v) = (pass target slots)^[k] v := by
  have hjumps : ∀ k, Jumps (rank slots) (Finset.insertNone slots.toFinset)
      (points target ((pass target slots)^[k] v))
      (points target ((pass target slots)^[k + 1] v)) := by
    intro k
    rw [Function.iterate_succ_apply']
    exact jumps_pass hnodup htarget _
  obtain ⟨k, hk⟩ := exists_idempotent (injOn_rank slots) hjumps
  refine ⟨k + 1, ?_⟩
  rw [Function.iterate_succ_apply']
  refine pass_pass hnodup fun s hs t ht => ?_
  have hloop := hk (some s) (by simpa using hs)
  have hpoints : points target ((pass target slots)^[k] v) (some s) = some t := ht
  rwa [hpoints] at hloop

end ShaderVariants.Following
