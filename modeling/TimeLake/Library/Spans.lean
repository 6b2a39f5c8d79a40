import Mathlib.Order.Lattice
import Mathlib.Order.Defs.LinearOrder
import Mathlib.Data.List.Basic

/-!
Coalescing spans. Spans that are sorted by where they begin are folded into
fewer ones: a span joins the one before it if it begins within reach of that
one's end, else it begins anew. `reach` says how far a gap is bridged. What is
left is as far apart as the reach, and every span lies inside one of them.
-/

namespace TimeLake.Library

variable {α : Type*} [LinearOrder α]

/-- The fold over the spans behind `last`, the one still open. -/
def coalesceFrom (reach : α → α) (last : α × α) : List (α × α) → List (α × α)
  | [] => [last]
  | span :: rest =>
      if span.1 ≤ reach last.2 then coalesceFrom reach (last.1, max last.2 span.2) rest
      else last :: coalesceFrom reach span rest

def coalesce (reach : α → α) : List (α × α) → List (α × α)
  | [] => []
  | span :: rest => coalesceFrom reach span rest

variable {reach : α → α}

/-- Every span ends up inside one, and the open one inside one that begins where
it does. -/
theorem coalesceFrom_covers (last : α × α) (spans : List (α × α))
    (hsorted : (last :: spans).Pairwise fun a b => a.1 ≤ b.1) :
    (∃ m ∈ coalesceFrom reach last spans, m.1 ≤ last.1 ∧ last.2 ≤ m.2) ∧
      ∀ s ∈ spans, ∃ m ∈ coalesceFrom reach last spans, m.1 ≤ s.1 ∧ s.2 ≤ m.2 := by
  induction spans generalizing last with
  | nil => simp [coalesceFrom]
  | cons span rest ih =>
      obtain ⟨hlast, hrest⟩ := List.pairwise_cons.mp hsorted
      rw [coalesceFrom]
      split
      · have hopen : ((last.1, max last.2 span.2) :: rest).Pairwise fun a b => a.1 ≤ b.1 :=
          List.pairwise_cons.mpr ⟨fun s hs => hlast s (by simp [hs]), hrest.tail⟩
        obtain ⟨⟨m, hm, hbegin, hend⟩, hcover⟩ := ih _ hopen
        refine ⟨⟨m, hm, hbegin, (le_max_left _ _).trans hend⟩, ?_⟩
        rw [List.forall_mem_cons]
        refine ⟨⟨m, hm, ?_, (le_max_right _ _).trans hend⟩, hcover⟩
        exact hbegin.trans (hlast span (by simp))
      · obtain ⟨⟨m, hm, hbegin, hend⟩, hcover⟩ := ih span hrest
        refine ⟨⟨last, by simp, le_refl _, le_refl _⟩, ?_⟩
        rw [List.forall_mem_cons]
        refine ⟨⟨m, by simp [hm], hbegin, hend⟩, fun s hs => ?_⟩
        obtain ⟨m, hm, hbegin, hend⟩ := hcover s hs
        exact ⟨m, by simp [hm], hbegin, hend⟩

theorem coalesce_covers {spans : List (α × α)} (hsorted : spans.Pairwise fun a b => a.1 ≤ b.1)
    {s : α × α} (hs : s ∈ spans) : ∃ m ∈ coalesce reach spans, m.1 ≤ s.1 ∧ s.2 ≤ m.2 := by
  cases spans with
  | nil => cases hs
  | cons span rest =>
      obtain ⟨hfirst, hrest⟩ := @coalesceFrom_covers α _ reach span rest hsorted
      rcases List.mem_cons.mp hs with rfl | hs
      · exact hfirst
      · exact hrest s hs

/-- A property of spans that the union of two of them keeps. -/
theorem coalesceFrom_forall {P : α × α → Prop}
    (hjoin : ∀ a b, P a → P b → P (a.1, max a.2 b.2)) (last : α × α) (spans : List (α × α))
    (hlast : P last) (hspans : ∀ s ∈ spans, P s) : ∀ m ∈ coalesceFrom reach last spans, P m := by
  induction spans generalizing last with
  | nil => simpa [coalesceFrom] using hlast
  | cons span rest ih =>
      rw [List.forall_mem_cons] at hspans
      rw [coalesceFrom]
      split
      · exact ih _ (hjoin last span hlast hspans.1) hspans.2
      · exact List.forall_mem_cons.mpr ⟨hlast, ih span hspans.1 hspans.2⟩

theorem coalesce_forall {P : α × α → Prop} (hjoin : ∀ a b, P a → P b → P (a.1, max a.2 b.2))
    {spans : List (α × α)} (hspans : ∀ s ∈ spans, P s) : ∀ m ∈ coalesce reach spans, P m := by
  cases spans with
  | nil => simp [coalesce]
  | cons span rest =>
      rw [List.forall_mem_cons] at hspans
      exact coalesceFrom_forall hjoin span rest hspans.1 hspans.2

/-- What is left of spans in order is in order, each out of reach of those before. -/
theorem coalesceFrom_separated (last : α × α) (spans : List (α × α))
    (hsorted : (last :: spans).Pairwise fun a b => a.1 ≤ b.1) :
    (∀ m ∈ coalesceFrom reach last spans, last.1 ≤ m.1) ∧
      (coalesceFrom reach last spans).Pairwise fun a b => reach a.2 < b.1 := by
  induction spans generalizing last with
  | nil => simp [coalesceFrom]
  | cons span rest ih =>
      obtain ⟨hlast, hrest⟩ := List.pairwise_cons.mp hsorted
      rw [coalesceFrom]
      split
      · exact ih _ (List.pairwise_cons.mpr ⟨fun s hs => hlast s (by simp [hs]), hrest.tail⟩)
      · next hfar =>
        obtain ⟨hbegin, hpairwise⟩ := ih span hrest
        have hspan := hlast span (by simp)
        refine ⟨List.forall_mem_cons.mpr ⟨le_refl _, fun m hm => hspan.trans (hbegin m hm)⟩, ?_⟩
        exact List.pairwise_cons.mpr
          ⟨fun m hm => (not_le.mp hfar).trans_le (hbegin m hm), hpairwise⟩

theorem coalesce_separated {spans : List (α × α)}
    (hsorted : spans.Pairwise fun a b => a.1 ≤ b.1) :
    (coalesce reach spans).Pairwise fun a b => reach a.2 < b.1 := by
  cases spans with
  | nil => exact List.Pairwise.nil
  | cons span rest => exact (coalesceFrom_separated span rest hsorted).2

end TimeLake.Library
