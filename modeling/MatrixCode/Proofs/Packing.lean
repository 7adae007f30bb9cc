import MatrixCode.Proofs.Building
import MatrixCode.Proofs.Sharing

/-!
How well storage is shared. Storage is handed on in the order of first use, so a temporary
that keeps storage of its own conflicts with something in the storage of each keeper
before it. All of these are in use when it is first used: there are as many conflicts at one
place as there are keepers, and no way to share storage needs less of it.
-/

namespace MatrixCode

/-- The first of two intervals, by first use, ends too late for the second to take over its
storage. -/
def Interval.Conflicts (kind : Kind) (a b : Interval) : Prop :=
  if kind = .matrix then b.first ≤ a.last else b.first < a.last

namespace Sharing

theorem conflicts_iff {kind : Kind} {a b : Interval} :
    a.Conflicts kind b ↔ ¬follows (decide (kind = .matrix)) a.last b := by
  by_cases hk : kind = .matrix <;> simp [Interval.Conflicts, follows, hk]

theorem follows_of_first_le {strict : Bool} {last : Nat} {x y : Interval}
    (h : follows strict last x) (le : x.first ≤ y.first) : follows strict last y := by
  unfold follows at *
  split at h <;> simp_all <;> omega

/-- Some of the members of a list, in its order. -/
theorem perm_filter_mem {xs cs : List Interval} (nodup : xs.Nodup) (distinct : cs.Nodup) (inside : cs ⊆ xs) :
    (xs.filter (· ∈ cs)).Perm cs := by
  refine (List.perm_ext_iff_of_nodup (nodup.filter _) distinct).mpr fun c => ?_
  rw [List.mem_filter, decide_eq_true_eq]
  exact and_iff_right_of_imp fun hc => inside hc

namespace Shares

variable {strict : Bool} {xs ks : List Interval} {f : Handle → Handle}
  (shares : Shares strict xs ks f) (sorted : xs.Pairwise Interval.Precedes)

include shares sorted

/-- Intervals that conflict with each other are in different storage. -/
theorem length_le_of_conflicts {cs : List Interval} (hcs : cs.Sublist xs)
    (conflicts : cs.Pairwise fun a b => ¬follows strict a.last b) : cs.length ≤ ks.length := by
  have apart : (cs.map fun c => f c.handle).Nodup := by
    rw [List.Nodup, List.pairwise_map]
    refine ((sorted.sublist hcs).and conflicts).imp_of_mem fun {a b} ha hb ⟨before, conflict⟩ same => ?_
    exact conflict (shares.ordered a (hcs.subset ha) b (hcs.subset hb) same before)
  have stored : (cs.map fun c => f c.handle) ⊆ ks.map Interval.handle := by
    intro h hh
    obtain ⟨c, hc, rfl⟩ := List.mem_map.mp hh
    obtain ⟨k, hk, same, -⟩ := shares.held c (hcs.subset hc)
    exact same ▸ List.mem_map_of_mem hk
  simpa using (List.subperm_of_subset apart stored).length_le

/-- The last of the keepers conflicts with something in the storage of each of the others, and
these are all in use where it is first used. -/
theorem exists_conflicts (nodup : (xs.map Interval.handle).Nodup) :
    ∃ cs : List Interval, cs.Sublist xs ∧
      (cs.Pairwise fun a b => ¬follows strict a.last b) ∧ cs.length = ks.length := by
  rcases ks.eq_nil_or_concat' with rfl | ⟨init, y, rfl⟩
  · exact ⟨[], List.nil_sublist xs, .nil, rfl⟩
  obtain ⟨-, -, full⟩ := List.pairwise_append.mp shares.full
  have busy (k : Interval) (hk : k ∈ init) :
      ∃ c ∈ xs, f c.handle = k.handle ∧ c.Precedes y ∧ ¬follows strict c.last y :=
    full k hk y List.mem_cons_self
  choose! pick inside stored before conflict using busy
  have hy : y ∈ xs := shares.chosen.subset (by simp)
  have crowd : ((init.map pick) ++ [y]).Nodup := by
    refine List.Nodup.of_map (fun c => f c.handle) ?_
    have handles : ((init.map pick) ++ [y]).map (fun c => f c.handle) =
        (init ++ [y]).map Interval.handle := by
      rw [List.map_append, List.map_append, List.map_map]
      congr 1
      · exact List.map_congr_left stored
      · simp [shares.kept y (by simp)]
    rw [handles]
    exact nodup.sublist (shares.chosen.map Interval.handle)
  have members (c : Interval) (hc : c ∈ (init.map pick) ++ [y]) :
      c ∈ xs ∧ (c = y ∨ c.Precedes y ∧ ¬follows strict c.last y) := by
    rcases List.mem_append.mp hc with hc | hc
    · obtain ⟨k, hk, rfl⟩ := List.mem_map.mp hc
      exact ⟨inside k hk, .inr ⟨before k hk, conflict k hk⟩⟩
    · obtain rfl := List.mem_singleton.mp hc
      exact ⟨hy, .inl rfl⟩
  refine ⟨xs.filter (· ∈ (init.map pick) ++ [y]), List.filter_sublist, ?_, ?_⟩
  · refine (sorted.sublist List.filter_sublist).imp_of_mem fun {a b} ha hb earlier follows => ?_
    have ha := (members a (by simpa using (List.mem_filter.mp ha).2)).2
    have hb := (members b (by simpa using (List.mem_filter.mp hb).2)).2
    rcases ha with rfl | ⟨-, conflict⟩
    · rcases hb with rfl | ⟨later, -⟩
      · exact earlier.asymm earlier
      · exact earlier.asymm later
    · refine conflict (follows_of_first_le follows ?_)
      rcases hb with rfl | ⟨before, -⟩
      · exact Nat.le_refl _
      · exact before.first_le
  · have perm := perm_filter_mem (List.Nodup.of_map _ nodup) crowd fun c hc => (members c hc).1
    rw [perm.length_eq]
    simp

end Shares
end Sharing

namespace Draft.RenamedBy

variable {f : Handle → Handle} {d d' : Draft} (r : RenamedBy f d d')
  (m : Table.Keeps f d.workspace.table)

include r m

/-- The instruction at a place mentions what its handles were renamed to. -/
theorem mentioned_iff {j : Nat} {k : Handle} :
    (∃ i, d'.program.instructions[j]? = some i ∧ k ∈ i.mentions d'.workspace.table) ↔
      ∃ i, d.program.instructions[j]? = some i ∧ ∃ h ∈ i.mentions d.workspace.table, f h = k := by
  simp only [r.instructions, List.getElem?_map, Option.map_eq_some_iff]
  constructor
  · rintro ⟨_, ⟨i, hi, rfl⟩, hk⟩
    rw [r.mentions_rename m (List.mem_of_getElem? hi)] at hk
    exact ⟨i, hi, List.mem_map.mp hk⟩
  · rintro ⟨i, hi, hk⟩
    refine ⟨_, ⟨i, hi, rfl⟩, ?_⟩
    rw [r.mentions_rename m (List.mem_of_getElem? hi)]
    exact List.mem_map.mpr hk

theorem mem_mentions_iff {k : Handle} :
    k ∈ d'.program.mentions d'.workspace.table ↔
      ∃ h ∈ d.program.mentions d.workspace.table, f h = k := by
  constructor
  · intro hk
    obtain ⟨i, hi, hk⟩ := List.mem_flatMap.mp hk
    obtain ⟨j, hj⟩ := List.mem_iff_getElem?.mp hi
    obtain ⟨i, hi, h, hh, same⟩ := (r.mentioned_iff m).mp ⟨i, hj, hk⟩
    exact ⟨h, List.mem_flatMap.mpr ⟨i, List.mem_of_getElem? hi, hh⟩, same⟩
  · rintro ⟨h, hh, same⟩
    obtain ⟨i, hi, hh⟩ := List.mem_flatMap.mp hh
    obtain ⟨j, hj⟩ := List.mem_iff_getElem?.mp hi
    obtain ⟨i, hi, hk⟩ := (r.mentioned_iff m).mpr ⟨i, hj, h, hh, same⟩
    exact List.mem_flatMap.mpr ⟨i, List.mem_of_getElem? hi, hk⟩

end Draft.RenamedBy

namespace Draft.HandsOn

variable {kind : Kind} {u : Usage} {f : Handle → Handle} {d d' : Draft} (on : HandsOn kind u f d d')

include on

theorem mentioned_iff {j : Nat} {k : Handle} :
    (∃ i, d'.program.instructions[j]? = some i ∧ k ∈ i.mentions d'.workspace.table) ↔
      ∃ i, d.program.instructions[j]? = some i ∧ ∃ h ∈ i.mentions d.workspace.table, f h = k :=
  on.renamed.mentioned_iff on.keeps

theorem mem_mentions_iff {k : Handle} :
    k ∈ d'.program.mentions d'.workspace.table ↔
      ∃ h ∈ d.program.mentions d.workspace.table, f h = k :=
  on.renamed.mem_mentions_iff on.keeps

/-- The temporaries of the kind that are left are those that keep storage. -/
theorem perm_temporariesOf (covered : ∀ i ∈ d.program.instructions, i.Covered d.workspace.table) :
    ∃ hs, (d'.program.temporariesOf d'.workspace.table kind).toOption = some hs ∧
      hs.Perm ((Sharing.keepers (decide (kind = .matrix)) (u.intervals kind)).map Interval.handle) := by
  obtain ⟨hs, listed⟩ := Option.isSome_iff_exists.mp (Program.isSome_temporaries (on.covered covered))
  refine ⟨_, Program.toOption_temporariesOf listed kind, ?_⟩
  have chosen := on.shares.chosen.map Interval.handle
  have nodup := (on.describes.nodup_intervals kind).sublist chosen
  refine (List.perm_ext_iff_of_nodup ((Program.nodup_temporaries listed).filter _) nodup).mpr fun k => ?_
  rw [List.mem_filter, (Program.temporaries_spec listed).2, decide_eq_true_eq,
    on.renamed.isTemporary, on.renamed.kind?, on.mem_mentions_iff]
  constructor
  · rintro ⟨⟨⟨h, hh, rfl⟩, temporary⟩, hk⟩
    have listed := on.describes.mem_handles_iff.mpr
      ⟨hh, (on.isTemporary h).mp temporary, (on.keeps.kind? h).symm.trans hk⟩
    obtain ⟨x, hx, rfl⟩ := List.mem_map.mp listed
    obtain ⟨k, hk, same, -⟩ := on.shares.held x hx
    exact same ▸ List.mem_map_of_mem hk
  · intro hk
    obtain ⟨mentioned, known⟩ := on.describes.mem_handles_iff.mp (chosen.subset hk)
    obtain ⟨x, hx, rfl⟩ := List.mem_map.mp hk
    exact ⟨⟨⟨x.handle, mentioned, on.shares.kept x hx⟩, known.1⟩, known.2⟩

end Draft.HandsOn

/-- No temporary of the kind can take over the storage of another one. -/
def Draft.Packed (kind : Kind) (d : Draft) : Prop :=
  ∀ u : Usage, u.Describes d.program d.workspace.table →
    (u.intervals kind).Pairwise (Interval.Conflicts kind)

namespace Sharing

theorem takeOver_eq_of_refused {strict : Bool} {last : Nat} {xs : List Interval}
    (refused : ∀ y ∈ xs, ¬follows strict last y) : takeOver strict last xs = ([], xs) := by
  induction xs with
  | nil => rfl
  | cons x xs ih =>
      obtain ⟨head, tail⟩ := List.forall_mem_cons.mp refused
      rw [takeOver, if_neg head, ih tail]

/-- Where all conflict, nothing is handed on. -/
theorem plan_eq_nil {strict : Bool} {xs : List Interval}
    (conflicts : xs.Pairwise fun a b => ¬follows strict a.last b) : plan strict xs = [] := by
  fun_induction plan strict xs with
  | case1 => rfl
  | case2 x xs split ih =>
      obtain ⟨refused, conflicts⟩ := List.pairwise_cons.mp conflicts
      have none : split = ([], xs) := takeOver_eq_of_refused refused
      rw [none] at ih ⊢
      exact ih conflicts

end Sharing

theorem Draft.Packed.plan_eq_nil {kind : Kind} {d : Draft} (packed : d.Packed kind) {u : Usage}
    (desc : u.Describes d.program d.workspace.table) :
    Sharing.plan (decide (kind = .matrix)) (u.intervals kind) = [] :=
  Sharing.plan_eq_nil ((packed u desc).imp Sharing.conflicts_iff.mp)

namespace Draft.HandsOn

variable {kind : Kind} {u : Usage} {f : Handle → Handle} {d d' : Draft} (on : HandsOn kind u f d d')

include on

/-- A temporary that is left is first used where it was, and last used after all whose storage it
has become. -/
theorem exists_keeper {u' : Usage} (desc : u'.Describes d'.program d'.workspace.table)
    {x : Interval} (hx : x ∈ u'.intervals kind) :
    ∃ k ∈ Sharing.keepers (decide (kind = .matrix)) (u.intervals kind),
      k.handle = x.handle ∧ k.first = x.first ∧
      ∀ c ∈ u.intervals kind, f c.handle = k.handle → c.last ≤ x.last := by
  obtain ⟨temporary, hk, spans⟩ := desc.mem_intervals_iff.mp hx
  rw [on.renamed.isTemporary] at temporary
  rw [on.renamed.kind?] at hk
  -- every place of the temporary is a place of one of those that were renamed to it
  have place {j : Nat} (at' : ∃ i, d'.program.instructions[j]? = some i ∧
      x.handle ∈ i.mentions d'.workspace.table) :
      ∃ c ∈ u.intervals kind, f c.handle = x.handle ∧ c.first ≤ j := by
    obtain ⟨i, hi, h, hh, same⟩ := on.mentioned_iff.mp at'
    rw [← same] at temporary hk
    have listed := on.describes.mem_handles_iff.mpr
      ⟨List.mem_flatMap.mpr ⟨i, List.mem_of_getElem? hi, hh⟩, (on.isTemporary h).mp temporary,
        (on.keeps.kind? h).symm.trans hk⟩
    obtain ⟨c, hc, rfl⟩ := List.mem_map.mp listed
    exact ⟨c, hc, same, ((on.describes.spans hc).bounds j i hi hh).1⟩
  have within (c : Interval) (hc : c ∈ u.intervals kind) (same : f c.handle = x.handle) :
      x.first ≤ c.first ∧ c.last ≤ x.last := by
    obtain ⟨i, hi, hh⟩ := (on.describes.spans hc).first
    obtain ⟨i', hi', hx'⟩ := on.mentioned_iff.mpr ⟨i, hi, c.handle, hh, same⟩
    obtain ⟨j, hj, hh⟩ := (on.describes.spans hc).last
    obtain ⟨j', hj', hx''⟩ := on.mentioned_iff.mpr ⟨j, hj, c.handle, hh, same⟩
    exact ⟨(spans.bounds _ i' hi' hx').1, (spans.bounds _ j' hj' hx'').2⟩
  obtain ⟨c, hc, same, early⟩ := place spans.first
  obtain ⟨k, hk', held, first⟩ := on.shares.held c hc
  have handle : k.handle = x.handle := held.symm.trans same
  have kept := (on.shares.kept k hk').trans handle
  refine ⟨k, hk', handle, ?_, fun c hc same => (within c hc (same.trans handle)).2⟩
  have := (within k (on.shares.chosen.subset hk') kept).1
  omega

/-- After storage was handed on, none is left to be handed on. -/
theorem packed : d'.Packed kind := by
  intro u' desc
  have sorted := on.describes.pairwise_intervals kind
  refine (desc.pairwise_intervals kind).imp_of_mem fun {x y} hx hy before => ?_
  obtain ⟨k, hk, sameK, firstK, last⟩ := on.exists_keeper desc hx
  obtain ⟨l, hl, sameL, firstL, -⟩ := on.exists_keeper desc hy
  have before' : k.Precedes l := by
    rw [Interval.Precedes, firstK, firstL, sameK, sameL]
    exact before
  obtain ⟨c, hc, same, -, conflict⟩ :=
    Interval.rel_of_precedes (sorted.sublist on.shares.chosen) on.shares.full hk hl before'
  rw [Sharing.conflicts_iff]
  intro follows
  exact conflict (Sharing.follows_of_first_le (Sharing.follows_of_le follows (last c hc same))
    (Nat.le_of_eq firstL.symm))

/-- Handing on the storage of one kind leaves the intervals of the others as they are. -/
theorem packed_of_ne {other : Kind} (apart : other ≠ kind) (packed : d.Packed other) :
    d'.Packed other := by
  intro u' desc
  have inside {x : Interval} (hx : x ∈ u'.intervals other) : x ∈ u.intervals other := by
    obtain ⟨temporary, hk, spans⟩ := desc.mem_intervals_iff.mp hx
    rw [on.renamed.isTemporary] at temporary
    rw [on.renamed.kind?] at hk
    have alone (h : Handle) : f h = x.handle ↔ h = x.handle := by
      rcases on.eq_or h with same | ⟨⟨-, before⟩, -, after⟩
      · rw [same]
      · refine iff_of_false (fun same => apart ?_) fun same => apart ?_
        · exact Option.some.inj (hk.symm.trans (same ▸ after))
        · exact Option.some.inj (hk.symm.trans (same ▸ before))
    have places {j : Nat} : (∃ i, d'.program.instructions[j]? = some i ∧
        x.handle ∈ i.mentions d'.workspace.table) ↔
        ∃ i, d.program.instructions[j]? = some i ∧ x.handle ∈ i.mentions d.workspace.table := by
      simp only [on.mentioned_iff, alone, exists_eq_right]
    refine on.describes.mem_intervals_iff.mpr ⟨temporary, hk, places.mp spans.first, places.mp spans.last,
      fun j i hi hm => ?_⟩
    obtain ⟨i', hi', hm'⟩ := places.mpr ⟨i, hi, hm⟩
    exact spans.bounds j i' hi' hm'
  refine (desc.pairwise_intervals other).imp_of_mem fun {x y} hx hy before => ?_
  exact Interval.rel_of_precedes (on.describes.pairwise_intervals other) (packed u on.describes)
    (inside hx) (inside hy) before

end Draft.HandsOn

/-- Sharing is optimal: as many temporaries of the kind are left as can conflict with each other,
and no way to share storage among those that do not conflict needs less of it. -/
theorem Drafting.shareTemporaries_optimal {d : Draft}
    (covered : ∀ i ∈ d.program.instructions, i.Covered d.workspace.table) {kind : Kind}
    (hk : kind ≠ .sequence) :
    ∃ u n d' hs, Usage.ofProgram d.program d.workspace.table = .ok u ∧
      Yields (shareTemporaries kind) d n d' ∧
      d'.program.temporariesOf d'.workspace.table kind = .ok hs ∧
      IsGreatest {size | ∃ cs : List Interval, cs.Sublist (u.intervals kind) ∧
        cs.Pairwise (Interval.Conflicts kind) ∧ cs.length = size} hs.length ∧
      ∀ {Slot : Type} [DecidableEq Slot] (slot : Handle → Slot),
        ((u.intervals kind).Pairwise fun a b =>
          slot a.handle = slot b.handle → ¬a.Conflicts kind b) →
        hs.length ≤ ((u.temporaries kind).map slot).dedup.length := by
  obtain ⟨u, n, d', f, used, ran, on⟩ := handsOn_shareTemporaries covered hk
  obtain ⟨hs, listed, perm⟩ := on.perm_temporariesOf covered
  have sorted := on.describes.pairwise_intervals kind
  have size : hs.length =
      (Sharing.keepers (decide (kind = .matrix)) (u.intervals kind)).length := by
    simpa using perm.length_eq
  obtain ⟨cs, inside, conflicts, count⟩ :=
    on.shares.exists_conflicts sorted (on.describes.nodup_intervals kind)
  refine ⟨u, n, d', hs, Outcome.toOption_eq_some.mp used, ran, Outcome.toOption_eq_some.mp listed,
    ⟨?_, ?_⟩, ?_⟩
  · exact ⟨cs, inside, conflicts.imp Sharing.conflicts_iff.mpr, by rw [size, count]⟩
  · rintro _ ⟨cs, inside, conflicts, rfl⟩
    rw [size]
    exact on.shares.length_le_of_conflicts sorted inside (conflicts.imp Sharing.conflicts_iff.mp)
  · intro Slot _ slot separate
    have apart : (cs.map fun c => slot c.handle).Nodup := by
      rw [List.Nodup, List.pairwise_map]
      refine ((separate.sublist inside).and conflicts).imp fun ⟨separate, conflict⟩ same => ?_
      exact separate same (Sharing.conflicts_iff.mpr conflict)
    have used : (cs.map fun c => slot c.handle) ⊆ ((u.temporaries kind).map slot).dedup := by
      intro s hs
      obtain ⟨c, hc, rfl⟩ := List.mem_map.mp hs
      rw [List.mem_dedup]
      exact List.mem_map_of_mem (List.mem_map_of_mem (inside.subset hc))
    have le := (List.subperm_of_subset apart used).length_le
    rwa [List.length_map, count, ← size] at le

/-- The equation `x = a * a * a * a * a` in the matrices `a` and `x`. -/
def Drafting.fifthPower : Drafting Unit := do
  let square ← apply (Request.binary .multiply ⟨0⟩ ⟨0⟩).perform
  let cube ← apply (Request.binary .multiply square ⟨0⟩).perform
  let fourth ← apply (Request.binary .multiply cube ⟨0⟩).perform
  let fifth ← apply (Request.binary .multiply fourth ⟨0⟩).perform
  assign fifth ⟨1⟩

/-- The draft of the equation. -/
def Draft.fifthPower : Draft :=
  ofEquation .fifthPower ⟨⟨#[.named "a" .matrix, .named "x" .matrix], []⟩, ⟨.zero, .zero, []⟩⟩

/-- A product conflicts with the next one, which reads it, and not with the one after that. -/
theorem Drafting.shareTemporaries_fifthPower :
    let d := Draft.fifthPower
    (∀ i ∈ d.program.instructions, i.Covered d.workspace.table) ∧
      (d.program.temporariesOf d.workspace.table .matrix).toOption.map List.length = some 4 ∧
      ∃ u n d' hs, Usage.ofProgram d.program d.workspace.table = .ok u ∧
        Yields (shareTemporaries .matrix) d n d' ∧
        d'.program.temporariesOf d'.workspace.table .matrix = .ok hs ∧ hs.length = 2 ∧
        (∃ cs : List Interval, cs.Sublist (u.intervals .matrix) ∧
          cs.Pairwise (Interval.Conflicts .matrix) ∧ cs.length = 2) ∧
        ∀ slot : Handle → Nat, ((u.intervals .matrix).Pairwise fun a b =>
            slot a.handle = slot b.handle → ¬a.Conflicts .matrix b) →
          2 ≤ ((u.temporaries .matrix).map slot).dedup.length := by
  intro d
  obtain ⟨_, listed⟩ := Option.isSome_iff_exists.mp
    (show (d.program.temporaries d.workspace.table).toOption.isSome by decide +kernel)
  have covered := (Program.temporaries_spec listed).1
  obtain ⟨u, n, d', hs, used, ran, left, greatest, slots⟩ :=
    shareTemporaries_optimal covered (show Kind.matrix ≠ .sequence by decide)
  have count : hs.length = 2 := by
    have computed : (((shareTemporaries .matrix).run.run d).2.program.temporariesOf
        ((shareTemporaries .matrix).run.run d).2.workspace.table .matrix).toOption.map List.length =
          some 2 := by decide +kernel
    rw [ran] at computed
    simpa [left] using computed
  refine ⟨covered, by decide +kernel, u, n, d', hs, used, ran, left, count, ?_, fun slot apart => ?_⟩
  · exact count ▸ greatest.1
  · exact count ▸ slots slot apart

end MatrixCode
