import Mathlib.Order.Interval.Finset.Nat
import MatrixCode.Proofs.Accounting

/-!
The books after a rollback. A checkpoint holds the size of the table and what was created, but not what
was released. So a rollback takes back whatever was made since, and what was released of the temporaries
from before stays released. A temporary that was made and released since is still counted as released
afterwards, though nothing counts it as created: the books balance if and only if there is no such
temporary.
-/

namespace MatrixCode

theorem Table.get?_truncate (t : Table) (n : Nat) (h : Handle) :
    (t.truncate n).get? h = if h.index < n then t.get? h else none := by
  by_cases inside : h.index < n
  · by_cases there : h.index < t.entries.size <;>
      simp [truncate, get?, inside, there]
  · simp [truncate, get?, inside]

theorem Table.index_lt_of_kind? {t : Table} {h : Handle} {kind : Kind} (hk : t.kind? h = some kind) :
    h.index < t.size := by
  obtain ⟨v, hv, -⟩ := Option.map_eq_some_iff.mp hk
  exact (Array.getElem?_eq_some_iff.mp hv).1

theorem Counts.of_bump_plain (c : Counts) (kind : Kind) {k : Kind} (hk : k ≠ .sequence) :
    (c.bump kind).of k = c.of k + if kind = k then 1 else 0 := by
  cases kind <;> cases k <;> first | rfl | exact absurd rfl hk

namespace Workspace

/-- The number of live temporaries of a kind. -/
def liveOf (w : Workspace) (kind : Kind) : Nat :=
  w.temporaries.live.countP fun h => w.table.kind? h = some kind

/-- What the books know of the temporaries of a kind: they were released, or they are live. -/
def accounted (w : Workspace) (kind : Kind) : Nat := w.temporaries.released.of kind + w.liveOf kind

/-- Per kind, what was created has been released or is live. -/
def Tallies (w : Workspace) : Prop :=
  ∀ kind, kind ≠ .sequence → w.temporaries.created.of kind = w.accounted kind

/-- What is done on the books between a checkpoint and a rollback. -/
inductive Posting where
  | create (kind : Kind)
  | release (h : Handle)

def post (w : Workspace) : Posting → Workspace
  | .create kind => (w.create kind).2
  | .release h => w.release h

/-- Carries out one posting after the other. -/
def postAll (w : Workspace) (postings : List Posting) : Workspace := postings.foldl post w

/-- A release takes a temporary from the live ones to the released ones. -/
theorem accounted_release (w : Workspace) (h : Handle) {kind : Kind} (hk : kind ≠ .sequence) :
    (w.release h).accounted kind = w.accounted kind := by
  unfold accounted liveOf
  rw [live_release, table_release, List.countP_erase]
  by_cases held : h ∈ w.temporaries.live
  · cases hv : w.table.get? h with
    | none => simp [release, held, hv, Table.kind?]
    | some v =>
        by_cases same : v.kind = kind
        · have counted : 0 < w.temporaries.live.countP fun k => w.table.kind? k = some kind :=
            List.countP_pos_iff.mpr ⟨h, held, by simp [Table.kind?, hv, same]⟩
          have bumped := Counts.of_bump_plain w.temporaries.released kind hk
          simp only [release, List.contains_iff_mem.mpr held, if_true, hv, same, bumped, held,
            Table.kind?, Option.map_some, decide_true, and_self]
          simp only [Table.kind?] at counted
          omega
        · simp [release, held, hv, Table.kind?, Counts.of_bump_plain _ _ hk, same]
  · simp [release, held]

section Rollback

variable {w : Workspace} {c : Checkpoint}

@[simp] theorem released_rollback (w : Workspace) (c : Checkpoint) :
    (w.rollback c).temporaries.released = w.temporaries.released := rfl

/-- What a rollback on the spot drops is of no kind, since it is not in the table. -/
theorem liveOf_rollback (w : Workspace) (kind : Kind) :
    (w.rollback w.checkpoint).liveOf kind = w.liveOf kind := by
  unfold liveOf
  rw [show (w.rollback w.checkpoint).temporaries.live = w.temporaries.live.filter _ from rfl,
    List.countP_filter]
  refine List.countP_congr fun h _ => ?_
  rw [Table.kind?, Table.kind?, get?_rollback]
  simp only [Bool.and_eq_true, decide_eq_true_eq, and_iff_left_iff_imp]
  exact Table.index_lt_of_kind?

/-- What is made after the checkpoint makes no difference to a rollback. -/
theorem rollback_create (since : c.tableSize ≤ w.table.size) (kind : Kind) :
    (w.create kind).2.rollback c = w.rollback c := by
  have entries : (w.create kind).2.table.truncate c.tableSize = w.table.truncate c.tableSize := by
    have outside : ¬w.table.entries.size < c.tableSize := Nat.not_lt.mpr since
    simp [create, Table.add, Table.truncate, Array.extract_push, outside]
  have live : (w.temporaries.live.insert ⟨w.table.size⟩).filter (fun h => h.index < c.tableSize) =
      w.temporaries.live.filter fun h => h.index < c.tableSize := by
    by_cases held : (⟨w.table.size⟩ : Handle) ∈ w.temporaries.live
    · rw [List.insert_of_mem held]
    · rw [List.insert_of_not_mem held, List.filter_cons_of_neg (by simpa using since)]
  simp only [rollback, entries, temporaries_create, live]

/-- Releasing a temporary from before the checkpoint can be done after the rollback as well. -/
theorem rollback_release_of_lt {h : Handle} (before : h.index < c.tableSize) :
    (w.release h).rollback c = (w.rollback c).release h := by
  have entry : (w.table.truncate c.tableSize).get? h = w.table.get? h := by
    rw [Table.get?_truncate, if_pos before]
  by_cases held : h ∈ w.temporaries.live
  · simp [release, rollback, held, before, entry, List.erase_filter]
  · simp [release, rollback, held]

/-- Of the release of a temporary made after the checkpoint, a rollback keeps that it was counted. -/
theorem rollback_release_of_le {h : Handle} (since : c.tableSize ≤ h.index) :
    (w.release h).rollback c =
      { w.rollback c with
        temporaries :=
          { (w.rollback c).temporaries with released := (w.release h).temporaries.released } } := by
  have live : (w.temporaries.live.erase h).filter (fun k => k.index < c.tableSize) =
      w.temporaries.live.filter fun k => k.index < c.tableSize := by
    rw [← List.erase_filter, List.erase_of_not_mem (by simp [since])]
  simp only [rollback, table_release, live_release, live]

end Rollback

/-- The temporaries of a kind that were made since `w` and are not live any more, by their places in the
table. -/
def lost (w w' : Workspace) (kind : Kind) : Finset Nat :=
  (Finset.Ico w.table.size w'.table.size).filter fun n =>
    w'.table.kind? ⟨n⟩ = some kind ∧ (⟨n⟩ : Handle) ∉ w'.temporaries.live

/-- What postings make of the workspace `w`, and how a rollback to `w` sees it. -/
structure Since (w w' : Workspace) : Prop where
  size : w.table.size ≤ w'.table.size
  nodup : w'.temporaries.live.Nodup
  entry : ∀ h, h.index < w.table.size → w'.table.get? h = w.table.get? h
  made : ∀ h, w.table.size ≤ h.index → h.index < w'.table.size →
    ∃ kind, kind ≠ .sequence ∧ w'.table.kind? h = some kind
  live : ∀ h ∈ w'.temporaries.live, h.index < w.table.size → h ∈ w.temporaries.live
  accounted : ∀ kind, kind ≠ .sequence → (w'.rollback w.checkpoint).accounted kind =
    w.temporaries.created.of kind + (lost w w' kind).card

namespace Since

variable {w w' : Workspace}

theorem start (nodup : w.temporaries.live.Nodup) (tallies : w.Tallies) : w.Since w where
  size := Nat.le_refl _
  nodup := nodup
  entry _ _ := rfl
  made h above below := absurd below (Nat.not_lt.mpr above)
  live h held _ := held
  accounted kind hk := by
    rw [tallies kind hk, Workspace.accounted, released_rollback, liveOf_rollback]
    simp [Workspace.accounted, lost]

theorem create (since : w.Since w') (kind : Kind) : w.Since (w'.create kind).2 := by
  have entry := w'.get?_create kind
  have size : (w'.create kind).2.table.size = w'.table.size + 1 := by
    simp [Workspace.create, Table.add, Table.size]
  have kept {h : Handle} (old : h.index < w'.table.size) :
      (w'.create kind).2.table.get? h = w'.table.get? h := by
    rw [entry, if_neg]
    rintro rfl
    exact Nat.lt_irrefl _ old
  have same (k : Kind) : lost w (w'.create kind).2 k = lost w w' k := by
    ext n
    simp only [lost, Finset.mem_filter, Finset.mem_Ico, size, temporaries_create, List.mem_insert_iff,
      Handle.mk.injEq, not_or]
    constructor
    · rintro ⟨⟨above, below⟩, hk, new, gone⟩
      have old : n < w'.table.size := by omega
      rw [Table.kind?, kept old] at hk
      exact ⟨⟨above, old⟩, hk, gone⟩
    · rintro ⟨⟨above, below⟩, hk, gone⟩
      refine ⟨⟨above, by omega⟩, ?_, by omega, gone⟩
      rw [Table.kind?, kept below]
      exact hk
  refine ⟨?_, ?_, fun h below => ?_, fun h above below => ?_, fun h held below => ?_, fun k hk => ?_⟩
  · have := since.size
    omega
  · rw [temporaries_create]
    exact since.nodup.insert
  · rw [kept (Nat.lt_of_lt_of_le below since.size), since.entry h below]
  · by_cases old : h.index < w'.table.size
    · rw [Table.kind?, kept old]
      exact since.made h above old
    · obtain rfl : h = ⟨w'.table.size⟩ := congrArg Handle.mk (by omega)
      rw [Table.kind?, entry, if_pos rfl]
      exact ⟨_, (nextTemporary_numbered _ kind).1, rfl⟩
  · rw [temporaries_create, List.mem_insert_iff] at held
    refine since.live h (held.resolve_left ?_) below
    rintro rfl
    exact absurd below (Nat.not_lt.mpr since.size)
  · rw [rollback_create since.size, same, since.accounted k hk]

/-- Where a temporary made since is released, one more is lost and one more counts as released. -/
theorem accounted_release_of_le (since : w.Since w') {h : Handle} (held : h ∈ w'.temporaries.live)
    (above : w.table.size ≤ h.index) {kind : Kind} (hk : kind ≠ .sequence) :
    ((w'.release h).rollback w.checkpoint).accounted kind =
      w.temporaries.created.of kind + (lost w (w'.release h) kind).card := by
  have released : (w'.release h).temporaries.released.of kind =
      w'.temporaries.released.of kind + if w'.table.kind? h = some kind then 1 else 0 := by
    cases hv : w'.table.get? h with
    | none => simp [Workspace.release, held, hv, Table.kind?]
    | some v => simp [Workspace.release, held, hv, Table.kind?, Counts.of_bump_plain _ _ hk]
  have missing (n : Nat) : (⟨n⟩ : Handle) ∉ w'.temporaries.live.erase h ↔
      n = h.index ∨ (⟨n⟩ : Handle) ∉ w'.temporaries.live := by
    rw [since.nodup.mem_erase_iff, not_and_or, not_not]
    exact or_congr_left ⟨congrArg Handle.index, congrArg Handle.mk⟩
  have lost_eq : lost w (w'.release h) kind =
      if w'.table.kind? h = some kind then insert h.index (lost w w' kind) else lost w w' kind := by
    ext n
    simp only [lost, table_release, live_release, missing]
    split
    · next here =>
        have below := Table.index_lt_of_kind? here
        simp only [Finset.mem_filter, Finset.mem_Ico, Finset.mem_insert]
        constructor
        · rintro ⟨inside, hn, rfl | gone⟩
          · exact .inl rfl
          · exact .inr ⟨inside, hn, gone⟩
        · rintro (rfl | ⟨inside, hn, gone⟩)
          · exact ⟨⟨above, below⟩, here, .inl rfl⟩
          · exact ⟨inside, hn, .inr gone⟩
    · next other =>
        simp only [Finset.mem_filter]
        refine and_congr_right fun _ => and_congr_right fun hn => or_iff_right ?_
        rintro rfl
        exact other hn
  have fresh : h.index ∉ lost w w' kind := by simp [lost, held]
  have before := since.accounted kind hk
  rw [rollback_release_of_le (c := w.checkpoint) above, lost_eq]
  simp only [Workspace.accounted, liveOf, released, released_rollback] at before ⊢
  split
  · rw [Finset.card_insert_of_notMem fresh]
    omega
  · simpa using before

theorem release (since : w.Since w') (h : Handle) : w.Since (w'.release h) := by
  by_cases held : h ∈ w'.temporaries.live
  · refine ⟨?_, ?_, fun k below => ?_, fun k above below => ?_, fun k hk below => ?_, fun kind hk => ?_⟩
    · rw [table_release]
      exact since.size
    · rw [live_release]
      exact since.nodup.erase h
    · rw [table_release]
      exact since.entry k below
    · rw [table_release] at below ⊢
      exact since.made k above below
    · rw [live_release] at hk
      exact since.live k (List.mem_of_mem_erase hk) below
    · by_cases before : h.index < w.table.size
      · have same : lost w (w'.release h) kind = lost w w' kind := by
          ext n
          simp only [lost, table_release, live_release, Finset.mem_filter, Finset.mem_Ico,
            since.nodup.mem_erase_iff]
          grind
        rw [rollback_release_of_lt (c := w.checkpoint) before, accounted_release _ _ hk, same,
          since.accounted kind hk]
      · exact since.accounted_release_of_le held (Nat.not_lt.mp before) hk
  · have unchanged : w'.release h = w' := by simp [Workspace.release, held]
    rwa [unchanged]

theorem postAll (since : w.Since w') (postings : List Posting) : w.Since (w'.postAll postings) := by
  refine List.foldlRecOn postings post since fun w₁ since posting _ => ?_
  cases posting with
  | create kind => exact since.create kind
  | release h => exact since.release h

/-- Nothing is lost if and only if all that was made since is live. -/
theorem tallies_rollback_iff (since : w.Since w') : (w'.rollback w.checkpoint).Tallies ↔
    ∀ h, w.table.size ≤ h.index → h.index < w'.table.size → h ∈ w'.temporaries.live := by
  have balance : (w'.rollback w.checkpoint).Tallies ↔
      ∀ kind, kind ≠ .sequence → lost w w' kind = ∅ := by
    refine forall₂_congr fun kind hk => ?_
    rw [since.accounted kind hk, ← Finset.card_eq_zero]
    exact ⟨fun same => by simpa [rollback, checkpoint] using same.symm, fun none => by rw [none]; rfl⟩
  rw [balance]
  constructor
  · intro none h above below
    obtain ⟨kind, hk, here⟩ := since.made h above below
    by_contra gone
    have : h.index ∈ lost w w' kind := by simp [lost, above, below, here, gone]
    simp [none kind hk] at this
  · intro all kind _
    refine Finset.filter_eq_empty_iff.mpr fun n inside => ?_
    obtain ⟨above, below⟩ := Finset.mem_Ico.mp inside
    simp [all ⟨n⟩ above below]

end Since

/-- A rollback leaves the variables and what was created as they were at the checkpoint, and of the live
temporaries only such that were live then. It leaves books in balance if and only if no temporary was
released that was made after the checkpoint. -/
theorem rollback_postAll {w : Workspace} (nodup : w.temporaries.live.Nodup) (tallies : w.Tallies)
    (postings : List Posting) :
    ((w.postAll postings).rollback w.checkpoint).table.entries = w.table.entries ∧
    ((w.postAll postings).rollback w.checkpoint).temporaries.created = w.temporaries.created ∧
    (∀ h ∈ ((w.postAll postings).rollback w.checkpoint).temporaries.live,
      h ∈ w.temporaries.live ∧ (w.table.get? h).isSome) ∧
    (((w.postAll postings).rollback w.checkpoint).Tallies ↔
      ∀ h, w.table.size ≤ h.index → h.index < (w.postAll postings).table.size →
        h ∈ (w.postAll postings).temporaries.live) := by
  have since : w.Since (w.postAll postings) := (Since.start nodup tallies).postAll postings
  refine ⟨Array.ext_getElem? fun n => ?_, rfl, fun h held => ?_, since.tallies_rollback_iff⟩
  · have entry := Table.get?_truncate (w.postAll postings).table w.table.size ⟨n⟩
    refine entry.trans ?_
    split
    · next below => exact since.entry ⟨n⟩ below
    · next above => exact (Array.getElem?_eq_none (Nat.not_lt.mp above)).symm
  · obtain ⟨held, below⟩ := List.mem_filter.mp held
    have below : h.index < w.table.size := of_decide_eq_true below
    exact ⟨since.live h held below, by simpa [Table.get?, Table.size] using below⟩

/-- The books after one temporary, the double `td0`, was made. -/
def afterDouble : Workspace := (initial.create .double).2

theorem tallies_afterDouble : afterDouble.Tallies := by
  intro kind hk
  cases kind with
  | integer | double | matrix => decide +kernel
  | sequence => exact absurd rfl hk

/-- Two temporaries are made and the older one is released in between: it stays released. -/
theorem rollback_releasedBefore :
    afterDouble.temporaries.live.Nodup ∧ afterDouble.Tallies ∧
    ∃ w, w = (afterDouble.postAll [.create .matrix, .release ⟨2⟩, .create .integer]).rollback
        afterDouble.checkpoint ∧
      w.table.entries = afterDouble.table.entries ∧ w.temporaries.created = ⟨0, 1, 0⟩ ∧
      w.temporaries.released = ⟨0, 1, 0⟩ ∧ w.temporaries.live = [] ∧ w.Tallies := by
  have nodup : afterDouble.temporaries.live.Nodup := by decide +kernel
  obtain ⟨entries, created, -, balanced⟩ := rollback_postAll nodup tallies_afterDouble
    [.create .matrix, .release ⟨2⟩, .create .integer]
  refine ⟨nodup, tallies_afterDouble, _, rfl, entries, created.trans (by decide +kernel),
    by decide +kernel, by decide +kernel, balanced.mpr fun h above below => ?_⟩
  have held : ∀ n < 5, 3 ≤ n → (⟨n⟩ : Handle) ∈
      (afterDouble.postAll [.create .matrix, .release ⟨2⟩, .create .integer]).temporaries.live := by
    decide +kernel
  have size : afterDouble.table.size = 3 ∧
      (afterDouble.postAll [.create .matrix, .release ⟨2⟩, .create .integer]).table.size = 5 := by
    decide +kernel
  exact held h.index (size.2 ▸ below) (size.1 ▸ above)

/-- A temporary is made after the checkpoint, released and taken back: it stays released, and was not
created. -/
theorem rollback_releasedSince :
    initial.temporaries.live.Nodup ∧ initial.Tallies ∧
    ∃ w, w = (initial.postAll [.create .integer, .release ⟨2⟩]).rollback initial.checkpoint ∧
      w.temporaries.created.of .integer = 0 ∧ w.temporaries.released.of .integer = 1 ∧ ¬w.Tallies := by
  refine ⟨List.nodup_nil, fun kind hk => ?_, _, rfl, by decide +kernel, by decide +kernel, fun tallies => ?_⟩
  · cases kind with
    | integer | double | matrix => rfl
    | sequence => exact absurd rfl hk
  · exact absurd (tallies .integer (by simp)) (by decide +kernel)

end Workspace
end MatrixCode
