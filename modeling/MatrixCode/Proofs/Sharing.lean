import Mathlib
import MatrixCode.Proofs.Agreement
import MatrixCode.Proofs.Usage

/-!
Sharing storage. Temporaries that come to share storage have intervals one after the other,
so none of them is written while another one still holds a value that is needed. A matrix is
written while the operands are read; there the intervals do not even touch.
-/

namespace MatrixCode
namespace Sharing

theorem follows_of_le {strict : Bool} {last last' : Nat} {x : Interval} (h : follows strict last x)
    (le : last' ≤ last) : follows strict last' x := by
  unfold follows at *
  split at h <;> simp_all <;> omega

theorem first_le_of_follows {strict : Bool} {last : Nat} {x : Interval} (h : follows strict last x) :
    last ≤ x.first := by
  unfold follows at h
  split at h <;> simp only [decide_eq_true_eq] at h <;> omega

theorem perm_takeOver (strict : Bool) (last : Nat) (xs : List Interval) :
    ((takeOver strict last xs).1 ++ (takeOver strict last xs).2).Perm xs := by
  induction xs generalizing last with
  | nil => exact .refl _
  | cons x xs ih =>
      unfold takeOver
      split
      · exact (ih x.last).cons x
      · exact List.perm_middle.trans ((ih last).cons x)

/-- Those that take over one storage follow each other. -/
theorem pairwise_takeOver (strict : Bool) (last : Nat) {xs : List Interval}
    (valid : ∀ x ∈ xs, x.first ≤ x.last) :
    (∀ y ∈ (takeOver strict last xs).1, follows strict last y) ∧
      (takeOver strict last xs).1.Pairwise fun a b => follows strict a.last b := by
  induction xs generalizing last with
  | nil => simp [takeOver]
  | cons x xs ih =>
      obtain ⟨head, tail⟩ := List.forall_mem_cons.mp valid
      unfold takeOver
      split
      · next taken =>
          obtain ⟨after, chain⟩ := ih x.last tail
          refine ⟨List.forall_mem_cons.mpr ⟨taken, fun y hy => ?_⟩, List.pairwise_cons.mpr ⟨after, chain⟩⟩
          exact follows_of_le (after y hy) ((first_le_of_follows taken).trans head)
      · exact ih last tail

theorem sublist_takeOver (strict : Bool) (last : Nat) (xs : List Interval) :
    (takeOver strict last xs).1.Sublist xs ∧ (takeOver strict last xs).2.Sublist xs := by
  induction xs generalizing last with
  | nil => exact ⟨.slnil, .slnil⟩
  | cons x xs ih =>
      unfold takeOver
      split
      · exact ⟨(ih x.last).1.cons_cons x, (ih x.last).2.cons x⟩
      · exact ⟨(ih last).1.cons x, (ih last).2.cons_cons x⟩

/-- What is left over came too early for the storage, or for one of those that had taken it over
by then. -/
theorem conflict_of_mem_left {strict : Bool} {last : Nat} {xs : List Interval}
    (sorted : xs.Pairwise Interval.Precedes) {y : Interval} (hy : y ∈ (takeOver strict last xs).2) :
    ¬follows strict last y ∨
      ∃ c ∈ (takeOver strict last xs).1, c.Precedes y ∧ ¬follows strict c.last y := by
  induction xs generalizing last with
  | nil => simp [takeOver] at hy
  | cons x xs ih =>
      obtain ⟨first, sorted⟩ := List.pairwise_cons.mp sorted
      unfold takeOver at hy ⊢
      split at hy
      · next taken =>
          rw [if_pos taken]
          right
          rcases ih sorted hy with early | ⟨c, hc, conflict⟩
          · have later := (sublist_takeOver strict x.last xs).2.subset hy
            exact ⟨x, List.mem_cons_self, first y later, early⟩
          · exact ⟨c, List.mem_cons_of_mem x hc, conflict⟩
      · next refused =>
          rw [if_neg refused]
          rcases List.mem_cons.mp hy with rfl | hy
          · exact .inl refused
          · exact ih sorted hy

/-- The storage of `x` goes along a chain of intervals behind it, and what is left over conflicts with one of
them. -/
structure TakesOver (strict : Bool) (x : Interval) (xs taken left : List Interval) : Prop where
  perm : (taken ++ left).Perm xs
  inside : taken.Sublist xs
  outside : left.Sublist xs
  chain : (x :: taken).Pairwise fun a b => follows strict a.last b
  conflict : ∀ y ∈ left, ∃ c ∈ x :: taken, c.Precedes y ∧ ¬follows strict c.last y

theorem takesOver (strict : Bool) {x : Interval} {xs : List Interval} (valid : ∀ y ∈ xs, y.first ≤ y.last)
    (sorted : (x :: xs).Pairwise Interval.Precedes) :
    TakesOver strict x xs (takeOver strict x.last xs).1 (takeOver strict x.last xs).2 := by
  obtain ⟨first, tail⟩ := List.pairwise_cons.mp sorted
  obtain ⟨taken, left⟩ := sublist_takeOver strict x.last xs
  refine ⟨perm_takeOver strict x.last xs, taken, left,
    List.pairwise_cons.mpr (pairwise_takeOver strict x.last valid), fun y hy => ?_⟩
  rcases conflict_of_mem_left tail hy with early | ⟨c, hc, conflict⟩
  · exact ⟨x, List.mem_cons_self, first y (left.subset hy), early⟩
  · exact ⟨c, List.mem_cons_of_mem x hc, conflict⟩

namespace TakesOver

variable {strict : Bool} {x : Interval} {xs taken left : List Interval}
  (step : TakesOver strict x xs taken left)

include step

theorem mem_cons {a : Interval} (ha : a ∈ x :: xs) : a ∈ x :: taken ∨ a ∈ left := by
  rw [List.mem_cons, ← step.perm.mem_iff, List.mem_append] at ha
  rw [List.mem_cons]
  tauto

theorem mem_handles {h : Handle} :
    h ∈ xs.map Interval.handle ↔ h ∈ taken.map Interval.handle ∨ h ∈ left.map Interval.handle := by
  rw [← (step.perm.map Interval.handle).mem_iff, List.map_append, List.mem_append]

theorem disjoint_handles (nodup : (xs.map Interval.handle).Nodup) :
    (taken.map Interval.handle).Disjoint (left.map Interval.handle) := by
  rw [← (step.perm.map Interval.handle).nodup_iff, List.map_append, List.nodup_append'] at nodup
  exact nodup.2.2

end TakesOver

theorem replaceAll_map (xs : List Interval) (k h : Handle) :
    Handle.replaceAll (xs.map fun x => (x.handle, k)) h =
      if h ∈ xs.map Interval.handle then k else h := by
  induction xs generalizing h with
  | nil => simp [Handle.replaceAll]
  | cons x xs ih =>
      have step : Handle.replaceAll ((x :: xs).map fun x => (x.handle, k)) h =
          Handle.replaceAll (xs.map fun x => (x.handle, k)) (Handle.replace x.handle k h) := rfl
      rw [step, ih]
      by_cases hh : h = x.handle <;> simp [Handle.replace, hh]

/-- Those whose storage is handed on. -/
def keepers (strict : Bool) : List Interval → List Interval
  | [] => []
  | x :: xs => x :: keepers strict (takeOver strict x.last xs).2
  termination_by xs => xs.length
  decreasing_by exact Nat.lt_succ_of_le (length_takeOver_le strict x.last xs)

/-- A renaming of the handles of intervals to those of some of them, the keepers of storage. It
brings together only what follows each other, and a keeper conflicts with something in the
storage of each keeper before it. -/
structure Shares (strict : Bool) (xs ks : List Interval) (f : Handle → Handle) : Prop where
  others : ∀ h, h ∉ xs.map Interval.handle → f h = h
  chosen : ks.Sublist xs
  kept : ∀ k ∈ ks, f k.handle = k.handle
  held : ∀ x ∈ xs, ∃ k ∈ ks, f x.handle = k.handle ∧ k.first ≤ x.first
  ordered : ∀ a ∈ xs, ∀ b ∈ xs, f a.handle = f b.handle → a.Precedes b → follows strict a.last b
  full : ks.Pairwise fun k y =>
    ∃ c ∈ xs, f c.handle = k.handle ∧ c.Precedes y ∧ ¬follows strict c.last y

theorem Shares.within {strict : Bool} {xs ks : List Interval} {f : Handle → Handle}
    (shares : Shares strict xs ks f) {x : Interval} (hx : x ∈ xs) :
    f x.handle ∈ xs.map Interval.handle := by
  obtain ⟨k, hk, same, -⟩ := shares.held x hx
  exact same ▸ List.mem_map_of_mem (shares.chosen.subset hk)

theorem mem_of_mem_plan {strict : Bool} {xs : List Interval} {pair : Handle × Handle}
    (h : pair ∈ plan strict xs) :
    pair.1 ∈ xs.map Interval.handle ∧ pair.2 ∈ xs.map Interval.handle := by
  fun_induction plan strict xs with
  | case1 => cases h
  | case2 x xs split ih =>
      have perm := (perm_takeOver strict x.last xs).map Interval.handle
      rw [List.map_append] at perm
      rcases List.mem_append.mp h with h | h
      · obtain ⟨y, hy, rfl⟩ := List.mem_map.mp h
        refine ⟨List.mem_cons_of_mem _ (perm.subset ?_), List.mem_cons_self⟩
        exact List.mem_append_left _ (List.mem_map_of_mem hy)
      · obtain ⟨first, second⟩ := ih h
        exact ⟨List.mem_cons_of_mem _ (perm.subset (List.mem_append_right _ first)),
          List.mem_cons_of_mem _ (perm.subset (List.mem_append_right _ second))⟩

/-- One storage is handed on along a chain, and the rest is shared among itself. -/
theorem Shares.cons {strict : Bool} {x : Interval} {xs taken left ks : List Interval} {g : Handle → Handle}
    (rest : Shares strict left ks g) (step : TakesOver strict x xs taken left)
    (sorted : (x :: xs).Pairwise Interval.Precedes) (nodup : ((x :: xs).map Interval.handle).Nodup) :
    Shares strict (x :: xs) (x :: ks) fun h =>
      g (if h ∈ taken.map Interval.handle then x.handle else h) := by
  obtain ⟨own, distinct⟩ := List.nodup_cons.mp nodup
  rw [step.mem_handles, not_or] at own
  have chained (a : Interval) (ha : a ∈ x :: taken) :
      g (if a.handle ∈ taken.map Interval.handle then x.handle else a.handle) = x.handle := by
    rcases List.mem_cons.mp ha with rfl | ha
    · rw [if_neg own.1, rest.others a.handle own.2]
    · rw [if_pos (List.mem_map_of_mem ha), rest.others x.handle own.2]
  have leftover (a : Interval) (ha : a ∈ left) :
      (if a.handle ∈ taken.map Interval.handle then x.handle else a.handle) = a.handle :=
    if_neg fun hm => step.disjoint_handles distinct hm (List.mem_map_of_mem ha)
  have separate (a : Interval) (ha : a ∈ left) : g a.handle ≠ x.handle :=
    fun same => own.2 (same ▸ rest.within ha)
  refine ⟨fun h hh => ?_, (rest.chosen.trans step.outside).cons_cons x, fun k hk => ?_, fun a ha => ?_,
    fun a ha b hb same before => ?_, List.pairwise_cons.mpr ⟨fun y hy => ?_, ?_⟩⟩
  · rw [List.map_cons, List.mem_cons, step.mem_handles, not_or, not_or] at hh
    rw [if_neg hh.2.1, rest.others h hh.2.2]
  · rcases List.mem_cons.mp hk with rfl | hk
    · exact chained k List.mem_cons_self
    · rw [leftover k (rest.chosen.subset hk), rest.kept k hk]
  · rcases step.mem_cons ha with ha | ha
    · refine ⟨x, List.mem_cons_self, chained a ha, ?_⟩
      rcases List.mem_cons.mp ha with rfl | ha
      · exact Nat.le_refl _
      · exact ((List.pairwise_cons.mp sorted).1 a (step.inside.subset ha)).first_le
    · obtain ⟨k, hk, held⟩ := rest.held a ha
      exact ⟨k, List.mem_cons_of_mem x hk, by rwa [leftover a ha]⟩
  · rcases step.mem_cons ha with ha | ha <;> rcases step.mem_cons hb with hb | hb
    · exact Interval.rel_of_precedes (sorted.sublist (step.inside.cons_cons x)) step.chain ha hb before
    · rw [chained a ha, leftover b hb] at same
      exact absurd same.symm (separate b hb)
    · rw [chained b hb, leftover a ha] at same
      exact absurd same (separate a ha)
    · rw [leftover a ha, leftover b hb] at same
      exact rest.ordered a ha b hb same before
  · obtain ⟨c, hc, conflict⟩ := step.conflict y (rest.chosen.subset hy)
    exact ⟨c, (step.inside.cons_cons x).subset hc, chained c hc, conflict⟩
  · refine rest.full.imp fun ⟨c, hc, same, conflict⟩ => ?_
    exact ⟨c, List.mem_cons_of_mem x (step.outside.subset hc), by rwa [leftover c hc], conflict⟩

theorem shares_plan (strict : Bool) {xs : List Interval} (valid : ∀ x ∈ xs, x.first ≤ x.last)
    (sorted : xs.Pairwise Interval.Precedes) (nodup : (xs.map Interval.handle).Nodup) :
    Shares strict xs (keepers strict xs) (Handle.replaceAll (plan strict xs)) := by
  fun_induction plan strict xs with
  | case1 => exact ⟨fun _ _ => rfl, by simp [keepers], by simp [keepers], by simp, by simp, by simp [keepers]⟩
  | case2 x xs split ih =>
      have tail := (List.forall_mem_cons.mp valid).2
      have step := takesOver strict tail sorted
      have rest := ih (fun y hy => tail y (step.outside.subset hy)) (sorted.of_cons.sublist step.outside)
        (nodup.of_cons.sublist (step.outside.map Interval.handle))
      have whole := rest.cons step sorted nodup
      rw [keepers]
      convert whole using 1
      funext h
      rw [Handle.replaceAll_append, replaceAll_map]

/-- Handles that come together have intervals one of which follows the other. -/
theorem Shares.merged {strict : Bool} {xs ks : List Interval} {f : Handle → Handle}
    (shares : Shares strict xs ks f) {h w : Handle} (same : f h = f w) (other : h ≠ w) :
    ∃ a ∈ xs, ∃ b ∈ xs, a.handle = h ∧ b.handle = w ∧
      (follows strict a.last b ∨ follows strict b.last a) := by
  have inside {h w : Handle} (same : f h = f w) (other : h ≠ w) : ∃ a ∈ xs, a.handle = h := by
    by_contra outside
    have hh : h ∉ xs.map Interval.handle := fun hm => outside (by simpa using hm)
    rw [shares.others h hh] at same
    by_cases hw : w ∈ xs.map Interval.handle
    · obtain ⟨b, hb, rfl⟩ := List.mem_map.mp hw
      exact hh (same ▸ shares.within hb)
    · exact other (same.trans (shares.others w hw))
  obtain ⟨a, ha, rfl⟩ := inside same other
  obtain ⟨b, hb, rfl⟩ := inside same.symm (Ne.symm other)
  refine ⟨a, ha, b, hb, rfl, rfl, ?_⟩
  exact (Interval.precedes_or_precedes other).imp (shares.ordered a ha b hb same)
    (shares.ordered b hb a ha same.symm)

/-- Where a temporary is live, it was mentioned before and it is mentioned again. -/
theorem bounds_of_live {d : Draft} {u : Usage} {kind : Kind}
    (opened : ∀ h, d.workspace.table.IsTemporary h →
      ¬Live d.workspace.table d.IsUser d.program.instructions h)
    (desc : u.Describes d.program d.workspace.table) {x : Interval} (hx : x ∈ u.intervals kind)
    {done rest : List Instruction} (split : d.program.instructions = done ++ rest)
    (live : Live d.workspace.table d.IsUser rest x.handle) :
    x.first < done.length ∧ done.length ≤ x.last := by
  obtain ⟨-, v, hv, temporary, -⟩ := desc.of_mem_intervals hx
  constructor
  · have mem : x.handle ∈ Instruction.outputs done := by
      by_contra unwritten
      refine opened x.handle ⟨v, hv, temporary⟩ ?_
      rw [split]
      exact Live.of_notMem_outputs unwritten live
    obtain ⟨j, hj, written⟩ := Instruction.mem_outputs.mp mem
    obtain ⟨first, last, rfl⟩ := List.append_of_mem hj
    have place : d.program.instructions = first ++ j :: (last ++ rest) := by simp [split]
    have bounds := desc.bounds hx place (Instruction.mem_mentions_of_output written)
    simp only [List.length_append, List.length_cons]
    omega
  · obtain ⟨j, hj, used⟩ := live.used_or_out.resolve_right fun ⟨user, _⟩ =>
      user ⟨v, hv, temporary⟩
    obtain ⟨first, last, rfl⟩ := List.append_of_mem hj
    have place : d.program.instructions = (done ++ first) ++ j :: last := by simp [split]
    have bounds := desc.bounds hx place (Instruction.mem_mentions_of_mem_uses used)
    simp only [List.length_append] at bounds
    omega

/-- Sharing keeps apart what is live. -/
theorem clear_of_shares {d : Draft} {u : Usage} {kind : Kind} {ks : List Interval}
    {f : Handle → Handle}
    (opened : ∀ h, d.workspace.table.IsTemporary h →
      ¬Live d.workspace.table d.IsUser d.program.instructions h)
    (desc : u.Describes d.program d.workspace.table)
    (shares : Shares (decide (kind = .matrix)) (u.intervals kind) ks f) :
    Clear f d.workspace.table d.IsUser d.program.instructions := by
  intro done i rest split w hw
  have written := Instruction.mem_mentions_of_output (t := d.workspace.table) hw
  refine ⟨fun h live same => ?_, fun matrix k hk same => ?_⟩
  · by_contra other
    obtain ⟨a, ha, b, hb, rfl, rfl, ordered⟩ := shares.merged same other
    have here := desc.bounds hb split written
    -- the value in `a` was written before the instruction, and it is used after it
    have before := bounds_of_live opened desc ha split (.inr ⟨fun ho => other (by simp_all), live⟩)
    have after := bounds_of_live opened desc ha
      (show d.program.instructions = (done ++ [i]) ++ rest by simp [split]) live
    simp only [List.length_append, List.length_singleton] at after
    rcases ordered with ordered | ordered
    all_goals
      have := first_le_of_follows ordered
      omega
  · by_contra other
    obtain ⟨a, ha, b, hb, rfl, rfl, ordered⟩ := shares.merged same other
    have left := desc.bounds ha split (Instruction.mem_mentions_of_mem_sources hk)
    have right := desc.bounds hb split written
    rcases matrix with matrix | part
    · obtain ⟨-, v, hv, -, hkind⟩ := desc.of_mem_intervals hb
      have strict : kind = .matrix := by simpa [Table.kind?, hv, hkind] using matrix
      simp only [follows, strict, decide_true, if_true, decide_eq_true_eq] at ordered
      omega
    · -- a part is written of what was there before, so both were written before
      have source := bounds_of_live opened desc ha split
        (.inl (Instruction.mem_uses_of_mem_sources hk))
      have target := bounds_of_live opened desc hb split
        (.inl (Instruction.mem_uses_of_isPartial hw part))
      rcases ordered with ordered | ordered
      all_goals
        have := first_le_of_follows ordered
        omega

end Sharing

namespace Draft

/-- Temporaries of one kind hand their storage on, as far as their intervals allow it. -/
structure HandsOn (kind : Kind) (u : Usage) (f : Handle → Handle) (d d' : Draft) : Prop where
  describes : u.Describes d.program d.workspace.table
  renamed : d.RenamedBy f d'
  sequence : kind ≠ .sequence
  shares : Sharing.Shares (decide (kind = .matrix)) (u.intervals kind)
    (Sharing.keepers (decide (kind = .matrix)) (u.intervals kind)) f

namespace HandsOn

variable {kind : Kind} {u : Usage} {f : Handle → Handle} {d d' : Draft} (on : HandsOn kind u f d d')

include on

/-- What is renamed is a temporary of the kind, and so is what it is renamed to. -/
theorem eq_or (h : Handle) :
    f h = h ∨ (d.workspace.table.IsTemporary h ∧ d.workspace.table.kind? h = some kind) ∧
      d.workspace.table.IsTemporary (f h) ∧ d.workspace.table.kind? (f h) = some kind := by
  by_cases hm : h ∈ (u.intervals kind).map Interval.handle
  · obtain ⟨x, hx, rfl⟩ := List.mem_map.mp hm
    exact .inr ⟨on.describes.isTemporary hm, on.describes.isTemporary (on.shares.within hx)⟩
  · exact .inl (on.shares.others h hm)

theorem fixed {h : Handle} (user : d.IsUser h) : f h = h :=
  (on.eq_or h).resolve_right fun ⟨⟨temporary, _⟩, _⟩ => user temporary

theorem isTemporary (h : Handle) :
    d.workspace.table.IsTemporary (f h) ↔ d.workspace.table.IsTemporary h := by
  rcases on.eq_or h with same | ⟨⟨temporary, -⟩, after, -⟩
  · rw [same]
  · exact iff_of_true after temporary

theorem keeps : Table.Keeps f d.workspace.table where
  kind? h := by
    rcases on.eq_or h with same | ⟨⟨-, before⟩, -, after⟩
    · rw [same]
    · rw [after, before]
  fixed h hh := (on.eq_or h).resolve_right fun ⟨⟨_, same⟩, _⟩ =>
    on.sequence (by simpa [hh] using same.symm)

theorem covered (covered : ∀ i ∈ d.program.instructions, i.Covered d.workspace.table) :
    ∀ i ∈ d'.program.instructions, i.Covered d'.workspace.table := by
  intro i hi
  rw [on.renamed.instructions] at hi
  obtain ⟨j, hj, rfl⟩ := List.mem_map.mp hi
  exact on.renamed.covered on.keeps hj (covered j hj)

end HandsOn

/-- Temporaries of the draft share storage: they are renamed among themselves, and what is live is
kept apart. -/
structure SharedBy (f : Handle → Handle) (d d' : Draft) : Prop where
  renamed : d.RenamedBy f d'
  merges : Table.Merges f d.workspace.table
  fixed : ∀ h, d.IsUser h → f h = h
  within : ∀ h, d.IsUser (f h) → d.IsUser h
  clear : Clear f d.workspace.table d.IsUser d.program.instructions

end Draft

namespace Drafting

theorem yields_shareTemporaries {d : Draft} {u : Usage}
    (hu : (Usage.ofProgram d.program d.workspace.table).toOption = some u) (kind : Kind) :
    Yields (shareTemporaries kind) d (Sharing.plan (kind = .matrix) (u.intervals kind)).length
      ((Sharing.plan (kind = .matrix) (u.intervals kind)).foldl
        (fun d (later, earlier) => d.replace later earlier) d) :=
  (yields_query hu).bind rfl

/-- Sharing hands on the storage of the temporaries of a kind, in every draft that can be listed. -/
theorem handsOn_shareTemporaries {d : Draft}
    (covered : ∀ i ∈ d.program.instructions, i.Covered d.workspace.table) {kind : Kind}
    (hk : kind ≠ .sequence) :
    ∃ u n d' f, (Usage.ofProgram d.program d.workspace.table).toOption = some u ∧
      Yields (shareTemporaries kind) d n d' ∧ d.HandsOn kind u f d' := by
  obtain ⟨u, hu⟩ := Option.isSome_iff_exists.mp (Usage.isSome_ofProgram covered)
  have desc := Usage.describes_of_ofProgram hu
  have shares := Sharing.shares_plan (decide (kind = .matrix)) (fun x hx => desc.first_le_last hx)
    (desc.pairwise_intervals kind) (desc.nodup_intervals kind)
  refine ⟨u, _, _, _, hu, yields_shareTemporaries hu kind, desc, ?_, hk, shares⟩
  refine Draft.RenamedBy.replaceAll d _ fun pair hp => ?_
  obtain ⟨later, earlier⟩ := Sharing.mem_of_mem_plan hp
  rw [(desc.isTemporary later).2, (desc.isTemporary earlier).2]
  exact ⟨rfl, by simpa using hk⟩

theorem handsOn_of_shareTemporaries {d d' : Draft} {kind : Kind} {n : Nat}
    (covered : ∀ i ∈ d.program.instructions, i.Covered d.workspace.table) (hk : kind ≠ .sequence)
    (ran : Yields (shareTemporaries kind) d n d') : ∃ u f, d.HandsOn kind u f d' := by
  obtain ⟨u, _, _, f, -, ran', on⟩ := handsOn_shareTemporaries covered hk
  rw [ran.unique ran']
  exact ⟨u, f, on⟩

/-- Storage is handed on kind by kind. -/
theorem handsOn_of_share {d d₁ d₂ d₃ : Draft} {n₁ n₂ n₃ : Nat}
    (covered : ∀ i ∈ d.program.instructions, i.Covered d.workspace.table)
    (first : Yields (shareTemporaries .integer) d n₁ d₁)
    (second : Yields (shareTemporaries .double) d₁ n₂ d₂)
    (third : Yields (shareTemporaries .matrix) d₂ n₃ d₃) :
    (∃ u f, d.HandsOn .integer u f d₁) ∧ (∃ u f, d₁.HandsOn .double u f d₂) ∧
      ∃ u f, d₂.HandsOn .matrix u f d₃ := by
  obtain ⟨u₁, f₁, on₁⟩ := handsOn_of_shareTemporaries covered (by simp) first
  have covered₁ := on₁.covered covered
  obtain ⟨u₂, f₂, on₂⟩ := handsOn_of_shareTemporaries covered₁ (by simp) second
  have covered₂ := on₂.covered covered₁
  obtain ⟨u₃, f₃, on₃⟩ := handsOn_of_shareTemporaries covered₂ (by simp) third
  exact ⟨⟨u₁, f₁, on₁⟩, ⟨u₂, f₂, on₂⟩, u₃, f₃, on₃⟩

/-- Sharing is a renaming among the temporaries of a kind, and keeps the meaning of a draft. -/
theorem shareTemporaries_spec {d : Draft} (sound : d.Sound) (kind : Kind) (hk : kind ≠ .sequence) :
    ∃ n d' f, Yields (shareTemporaries kind) d n d' ∧ d.SharedBy f d' := by
  obtain ⟨u, n, d', f, -, ran, on⟩ := handsOn_shareTemporaries sound.covered hk
  have plain (h : Handle) (hh : h ∈ (u.intervals kind).map Interval.handle) (a : Appearance)
      (ha : d.workspace.table.appearance? h = some a) : a.isLiteral = false := by
    obtain ⟨x, hx, rfl⟩ := List.mem_map.mp hh
    obtain ⟨-, v, hv, temporary, -⟩ := on.describes.of_mem_intervals hx
    obtain ⟨i, hi, mentioned⟩ := List.mem_flatMap.mp (on.describes.mem_mentions hx)
    exact sound.plain x.handle (sound.mem_outputs hi mentioned ⟨v, hv, temporary⟩) a
      ⟨v, hv, temporary⟩ ha
  refine ⟨n, d', f, ran, on.renamed, ⟨fun h => ?_, on.keeps.fixed⟩, fun h => on.fixed,
    fun h user temporary => user ((on.isTemporary h).mpr temporary),
    Sharing.clear_of_shares sound.opened on.describes on.shares⟩
  by_cases hm : h ∈ (u.intervals kind).map Interval.handle
  · obtain ⟨x, hx, rfl⟩ := List.mem_map.mp hm
    exact Table.appearance?_eq_of_kind? (on.keeps.kind? _) (plain _ (on.shares.within hx))
      (plain _ hm)
  · rw [on.shares.others h hm]

theorem of_shareTemporaries {d d' : Draft} {kind : Kind} (hk : kind ≠ .sequence) {n : Nat}
    (sound : d.Sound) (ran : Yields (shareTemporaries kind) d n d') : ∃ f, d.SharedBy f d' := by
  obtain ⟨_, _, f, ran', shared⟩ := shareTemporaries_spec sound kind hk
  rw [ran.unique ran']
  exact ⟨f, shared⟩

end Drafting
end MatrixCode
