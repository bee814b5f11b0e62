import Stencil.Script.Context

/-! # Sites of the render context

The sites of a script are its references to the render context, each place once, in the order of
the text.
-/

namespace Stencil.Script

open List

/-- References in the order of the text; several may stand at one place. -/
def InOrder (refs : List Ref) : Prop :=
  refs.Pairwise fun a b => a.ident.start ≤ b.ident.start

variable {refs : List Ref}

theorem mem_insertByStart : s ∈ insertByStart r refs ↔ s = r ∨ s ∈ refs := by
  induction refs with
  | nil => simp [insertByStart]
  | cons t refs ih =>
    simp only [insertByStart]
    split
    · simp
    · simp only [mem_cons, ih]
      exact or_left_comm

theorem inOrder_insertByStart (r) (ordered : InOrder refs) : InOrder (insertByStart r refs) := by
  induction refs with
  | nil => exact pairwise_singleton ..
  | cons t refs ih =>
    obtain ⟨first, rest⟩ := pairwise_cons.mp ordered
    simp only [insertByStart]
    split
    next le =>
      refine pairwise_cons.mpr ⟨fun s member => ?_, ordered⟩
      rcases mem_cons.mp member with rfl | later
      · exact le
      · exact Nat.le_trans le (first s later)
    next gt =>
      refine pairwise_cons.mpr ⟨fun s member => ?_, ih rest⟩
      rcases mem_insertByStart.mp member with rfl | later
      · omega
      · exact first s later

theorem mem_foldr_insertByStart : s ∈ refs.foldr insertByStart [] ↔ s ∈ refs := by
  induction refs with
  | nil => simp
  | cons r refs ih => simp [mem_insertByStart, ih]

theorem inOrder_foldr_insertByStart (refs : List Ref) : InOrder (refs.foldr insertByStart []) := by
  induction refs with
  | nil => exact .nil
  | cons r refs ih => exact inOrder_insertByStart r ih

theorem foldr_insertByStart_of_inOrder (ordered : InOrder refs) :
    refs.foldr insertByStart [] = refs := by
  induction ordered with
  | nil => rfl
  | @cons r refs first _ ih =>
    rw [foldr_cons, ih]
    cases refs with
    | nil => rfl
    | cons s refs => rw [insertByStart, if_pos (first s mem_cons_self)]

theorem firstAtEach_of_increasing
    (increasing : refs.Pairwise fun a b => a.ident.start < b.ident.start) :
    firstAtEach refs = refs := by
  induction increasing with
  | nil => rfl
  | @cons r refs first _ ih =>
    rw [firstAtEach, ih]
    cases refs with
    | nil => rfl
    | cons s refs => exact if_neg (Nat.ne_of_lt (first s mem_cons_self))

theorem mem_of_mem_firstAtEach (member : s ∈ firstAtEach refs) : s ∈ refs := by
  induction refs with
  | nil => exact member
  | cons r refs ih =>
    simp only [firstAtEach] at member
    split at member
    next t more found =>
      rw [found] at ih
      split at member
      · rcases mem_cons.mp member with rfl | later
        · exact mem_cons_self
        · exact mem_cons_of_mem r (ih (mem_cons_of_mem t later))
      · rcases mem_cons.mp member with rfl | later
        · exact mem_cons_self
        · exact mem_cons_of_mem r (ih later)
    · exact mem_singleton.mp member ▸ mem_cons_self

theorem exists_mem_firstAtEach (member : s ∈ refs) :
    ∃ t ∈ firstAtEach refs, t.ident.start = s.ident.start := by
  induction refs with
  | nil => cases member
  | cons r refs ih =>
    have rest : s ∈ refs → ∃ t ∈ firstAtEach (r :: refs), t.ident.start = s.ident.start := by
      intro later
      obtain ⟨t, kept, same⟩ := ih later
      simp only [firstAtEach]
      split
      next u more found =>
        rw [found] at kept
        split
        next place =>
          rcases mem_cons.mp kept with rfl | after
          · exact ⟨r, mem_cons_self, place.trans same⟩
          · exact ⟨t, mem_cons_of_mem r after, same⟩
        · exact ⟨t, mem_cons_of_mem r kept, same⟩
      next none =>
        rw [none] at kept
        cases kept
    rcases mem_cons.mp member with rfl | later
    · refine ⟨s, ?_, rfl⟩
      simp only [firstAtEach]
      split
      · split <;> exact mem_cons_self
      · exact mem_cons_self
    · exact rest later

theorem firstAtEach_increasing (ordered : InOrder refs) :
    (firstAtEach refs).Pairwise fun a b => a.ident.start < b.ident.start := by
  induction refs with
  | nil => exact .nil
  | cons r refs ih =>
    obtain ⟨first, rest⟩ := pairwise_cons.mp ordered
    have increasing := ih rest
    simp only [firstAtEach]
    split
    next t more found =>
      rw [found] at increasing
      have inside : ∀ s ∈ t :: more, s ∈ refs := fun s member =>
        mem_of_mem_firstAtEach (found ▸ member)
      obtain ⟨after, others⟩ := pairwise_cons.mp increasing
      split
      next place =>
        exact pairwise_cons.mpr ⟨fun s member => place ▸ after s member, others⟩
      next place =>
        have before : r.ident.start < t.ident.start :=
          Nat.lt_of_le_of_ne (first t (inside t mem_cons_self)) place
        refine pairwise_cons.mpr ⟨fun s member => ?_, increasing⟩
        rcases mem_cons.mp member with rfl | later
        · exact before
        · exact Nat.lt_trans before (after s later)
    · exact pairwise_singleton ..

namespace Uses

variable {u : Uses}

theorem of_mem_sites (member : r ∈ u.sites known) : r ∈ u.refs ∧ r.isContext known = true :=
  mem_filter.mp (mem_foldr_insertByStart.mp (mem_of_mem_firstAtEach member))

theorem exists_site (member : r ∈ u.refs) (context : r.isContext known = true) :
    ∃ s ∈ u.sites known, s.ident.start = r.ident.start :=
  exists_mem_firstAtEach (mem_foldr_insertByStart.mpr (mem_filter.mpr ⟨member, context⟩))

theorem sites_increasing (u : Uses) (known : String → Bool) :
    (u.sites known).Pairwise fun a b => a.ident.start < b.ident.start :=
  firstAtEach_increasing (inOrder_foldr_insertByStart _)

/-- References in order, each at its own place, are sites as they are. -/
theorem sites_of_increasing (increasing : u.refs.Pairwise fun a b => a.ident.start < b.ident.start) :
    u.sites known = u.refs.filter (·.isContext known) := by
  have filtered := increasing.filter (·.isContext known)
  rw [sites, foldr_insertByStart_of_inOrder (filtered.imp Nat.le_of_lt),
    firstAtEach_of_increasing filtered]

theorem sites_eq_nil_iff : u.sites known = [] ↔ ∀ r ∈ u.refs, r.isContext known = false := by
  constructor
  · intro none r member
    cases context : r.isContext known with
    | false => rfl
    | true =>
      obtain ⟨s, site, -⟩ := exists_site member context
      rw [none] at site
      cases site
  · intro noContext
    refine eq_nil_iff_forall_not_mem.mpr fun r member => ?_
    obtain ⟨inside, context⟩ := of_mem_sites member
    simp [noContext r inside] at context

end Uses

end Stencil.Script
