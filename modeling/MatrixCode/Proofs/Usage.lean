import MatrixCode.Optimizer.Basic
import MatrixCode.Proofs.Liveness

/-!
The usage of a program, and the intervals of its temporaries. A temporary has one interval,
which contains every instruction that mentions it.
-/

namespace MatrixCode

/-- A filter whose test does not fail. -/
theorem Outcome.filterM_eq_filter {ε α : Type} {f : α → Except ε Bool} {p : α → Bool} {xs : List α}
    (h : ∀ a ∈ xs, f a = .ok (p a)) : xs.filterM f = .ok (xs.filter p) := by
  have worker (acc : List α) : List.filterAuxM f xs acc = .ok ((xs.filter p).reverse ++ acc) := by
    induction xs generalizing acc with
    | nil => rfl
    | cons x xs ih =>
        obtain ⟨head, tail⟩ := List.forall_mem_cons.mp h
        have step : List.filterAuxM f (x :: xs) acc =
            (f x >>= fun b => List.filterAuxM f xs (bif b then x :: acc else acc)) := rfl
        rw [step, head, List.filter_cons]
        cases p x <;> simp [ih tail, bind, Except.bind]
  rw [List.filterM, worker]
  simp [bind, Except.bind, pure, Except.pure]

namespace Handle

theorem mem_insertSorted {h k : Handle} {ks : List Handle} :
    h ∈ insertSorted k ks ↔ h = k ∨ h ∈ ks := by
  induction ks with
  | nil => simp [insertSorted]
  | cons j ks ih =>
      unfold insertSorted
      split
      · simp
      · split
        · next same => simp [same]
        · simp [ih, or_left_comm]

@[simp] theorem mem_sorted {h : Handle} {hs : List Handle} : h ∈ sorted hs ↔ h ∈ hs := by
  induction hs with
  | nil => simp [sorted]
  | cons k hs ih => rw [sorted, List.foldr_cons, mem_insertSorted, ← sorted, ih, List.mem_cons]

theorem pairwise_insertSorted (k : Handle) {ks : List Handle}
    (hks : ks.Pairwise fun a b => a.index < b.index) :
    (insertSorted k ks).Pairwise fun a b => a.index < b.index := by
  induction ks with
  | nil => simp [insertSorted]
  | cons j ks ih =>
      obtain ⟨first, rest⟩ := List.pairwise_cons.mp hks
      unfold insertSorted
      split
      · next less =>
          refine List.pairwise_cons.mpr ⟨fun a ha => ?_, hks⟩
          rcases List.mem_cons.mp ha with rfl | ha
          · exact less
          · exact Nat.lt_trans less (first a ha)
      · next notLess =>
          split
          · exact hks
          · next other =>
              refine List.pairwise_cons.mpr ⟨fun a ha => ?_, ih rest⟩
              rcases mem_insertSorted.mp ha with rfl | ha
              · have : a.index ≠ j.index := fun same => other (by cases a; cases j; simp_all)
                omega
              · exact first a ha

theorem pairwise_sorted (hs : List Handle) :
    (sorted hs).Pairwise fun a b => a.index < b.index := by
  induction hs with
  | nil => exact .nil
  | cons h hs ih => exact pairwise_insertSorted h ih

/-- The sorted handles are listed once each. -/
theorem nodup_sorted (hs : List Handle) : (sorted hs).Nodup := by
  refine (pairwise_sorted hs).imp fun less same => ?_
  rw [same] at less
  exact Nat.lt_irrefl _ less

end Handle

namespace Interval

theorem perm_insertByFirst (x : Interval) (xs : List Interval) :
    (insertByFirst x xs).Perm (x :: xs) := by
  induction xs with
  | nil => exact .refl _
  | cons y ys ih =>
      unfold insertByFirst
      split
      · exact .refl _
      · exact (ih.cons y).trans (.swap x y ys)

theorem perm_sortByFirst (xs : List Interval) : (sortByFirst xs).Perm xs := by
  induction xs with
  | nil => exact .refl _
  | cons x xs ih => exact (perm_insertByFirst x _).trans (ih.cons x)

/-- The order of first use; what starts at the same place is told apart by its handle. -/
def Precedes (a b : Interval) : Prop :=
  a.first < b.first ∨ a.first = b.first ∧ a.handle.index < b.handle.index

theorem Precedes.first_le {a b : Interval} (h : a.Precedes b) : a.first ≤ b.first := by
  rcases h with less | ⟨same, -⟩ <;> omega

theorem Precedes.asymm {a b : Interval} (h : a.Precedes b) : ¬b.Precedes a := by
  unfold Precedes at *
  omega

theorem precedes_or_precedes {a b : Interval} (other : a.handle ≠ b.handle) :
    a.Precedes b ∨ b.Precedes a := by
  have : a.handle.index ≠ b.handle.index := fun same => other (congrArg Handle.mk same)
  unfold Precedes
  omega

/-- In a sorted list, what comes earlier is related to what comes later. -/
theorem rel_of_precedes {R : Interval → Interval → Prop} {xs : List Interval}
    (sorted : xs.Pairwise Precedes) (related : xs.Pairwise R) {a b : Interval} (ha : a ∈ xs)
    (hb : b ∈ xs) (before : a.Precedes b) : R a b := by
  induction xs with
  | nil => cases ha
  | cons x xs ih =>
      obtain ⟨first, sorted⟩ := List.pairwise_cons.mp sorted
      obtain ⟨next, related⟩ := List.pairwise_cons.mp related
      rcases List.mem_cons.mp ha with rfl | later
      · rcases List.mem_cons.mp hb with rfl | hb
        · exact absurd before before.asymm
        · exact next b hb
      · rcases List.mem_cons.mp hb with rfl | hb
        · exact absurd before (first a later).asymm
        · exact ih sorted related later hb

theorem pairwise_insertByFirst {x : Interval} {xs : List Interval}
    (smaller : ∀ y ∈ xs, x.handle.index < y.handle.index) (sorted : xs.Pairwise Precedes) :
    (insertByFirst x xs).Pairwise Precedes := by
  induction xs with
  | nil => simp [insertByFirst]
  | cons y ys ih =>
      obtain ⟨head, tail⟩ := List.forall_mem_cons.mp smaller
      obtain ⟨first, rest⟩ := List.pairwise_cons.mp sorted
      unfold insertByFirst
      split
      · next le =>
          have before : x.Precedes y := by
            unfold Precedes
            omega
          refine List.pairwise_cons.mpr ⟨List.forall_mem_cons.mpr ⟨before, fun z hz => ?_⟩, sorted⟩
          have := (first z hz).first_le
          have := tail z hz
          unfold Precedes
          omega
      · next less =>
          refine List.pairwise_cons.mpr ⟨fun z hz => ?_, ih tail rest⟩
          rcases List.mem_cons.mp ((perm_insertByFirst x ys).subset hz) with rfl | hz
          · exact .inl (by omega)
          · exact first z hz

theorem pairwise_sortByFirst {xs : List Interval}
    (ascending : xs.Pairwise fun a b => a.handle.index < b.handle.index) :
    (sortByFirst xs).Pairwise Precedes := by
  induction xs with
  | nil => exact .nil
  | cons x xs ih =>
      obtain ⟨smaller, ascending⟩ := List.pairwise_cons.mp ascending
      exact pairwise_insertByFirst
        (fun y hy => smaller y ((perm_sortByFirst xs).subset hy)) (ih ascending)

/-- The interval runs from the first to the last of the instructions that mention its handle. -/
structure Spans (t : Table) (is : List Instruction) (x : Interval) : Prop where
  first : ∃ i, is[x.first]? = some i ∧ x.handle ∈ i.mentions t
  last : ∃ i, is[x.last]? = some i ∧ x.handle ∈ i.mentions t
  bounds : ∀ j i, is[j]? = some i → x.handle ∈ i.mentions t → x.first ≤ j ∧ j ≤ x.last

theorem Spans.unique {t : Table} {is : List Instruction} {x y : Interval} (hx : x.Spans t is)
    (hy : y.Spans t is) (same : x.handle = y.handle) : x = y := by
  obtain ⟨_, xFirst, hxf⟩ := hx.first
  obtain ⟨_, xLast, hxl⟩ := hx.last
  obtain ⟨_, yFirst, hyf⟩ := hy.first
  obtain ⟨_, yLast, hyl⟩ := hy.last
  have := hx.bounds _ _ yFirst (same ▸ hyf)
  have := hx.bounds _ _ yLast (same ▸ hyl)
  have := hy.bounds _ _ xFirst (same ▸ hxf)
  have := hy.bounds _ _ xLast (same ▸ hxl)
  obtain ⟨h, first, last⟩ := x
  obtain ⟨k, first', last'⟩ := y
  simp only [mk.injEq] at *
  exact ⟨same, by omega, by omega⟩

end Interval

namespace Program

variable {p : Program} {t : Table}

/-- Everything that the program mentions. -/
def mentions (t : Table) (p : Program) : List Handle := p.instructions.flatMap (·.mentions t)

theorem toOption_mapM_references (p : Program) (t : Table) :
    (p.instructions.mapM fun i => Instruction.references i t).toOption =
      if ∀ i ∈ p.instructions, ∀ h ∈ i.range.getD [], (t.get? h).isSome then
        some (p.instructions.map (·.mentions t))
      else none := by
  rw [Outcome.toOption_mapM]
  split
  · next covered =>
      refine Outcome.mapM_eq_map fun i hi => ?_
      rw [Instruction.toOption_references, if_pos (covered i hi)]
  · next uncovered =>
      cases hm : p.instructions.mapM fun i => (Instruction.references i t).toOption with
      | none => rfl
      | some hss =>
          refine absurd (fun i hi => ?_) uncovered
          have found := Outcome.isSome_of_mapM hm i hi
          rw [Instruction.toOption_references] at found
          split at found
          · next covered => exact covered
          · cases found

/-- Everything that the program mentions is in the table when its parts are. -/
theorem isSome_mapM_fetch (covered : ∀ i ∈ p.instructions, i.Covered t) :
    ((Handle.sorted (p.mentions t)).mapM t.fetch).toOption.isSome := by
  rw [Outcome.toOption_mapM]
  refine Outcome.isSome_mapM.mpr fun h hh => ?_
  obtain ⟨i, hi, hh⟩ := List.mem_flatMap.mp (Handle.mem_sorted.mp hh)
  rw [Table.toOption_fetch]
  exact (covered i hi).mentioned h hh

theorem toOption_references (p : Program) (t : Table) :
    (p.references t).toOption =
      if ∀ i ∈ p.instructions, ∀ h ∈ i.range.getD [], (t.get? h).isSome then
        some (Handle.sorted (p.mentions t))
      else none := by
  simp only [references, Outcome.toOption_bind, toOption_mapM_references]
  split <;> rfl

/-- The temporaries of a program can be listed only when it is covered by the table. -/
theorem temporaries_spec {hs : List Handle} (h : (p.temporaries t).toOption = some hs) :
    (∀ i ∈ p.instructions, i.Covered t) ∧ ∀ k, k ∈ hs ↔ k ∈ p.mentions t ∧ t.IsTemporary k := by
  simp only [temporaries, Outcome.toOption_bind, toOption_references] at h
  split at h
  · next ranges =>
      simp only [Option.bind_some, Outcome.toOption_mapM, Table.toOption_fetch,
        Option.bind_eq_some_iff, Outcome.toOption_pure, Option.some.injEq] at h
      obtain ⟨vs, hvs, rfl⟩ := h
      obtain ⟨handles, entry⟩ := Outcome.zip_of_mapM hvs
      have found := Outcome.isSome_of_mapM hvs
      refine ⟨fun i hi => ⟨ranges i hi, fun k hk => ?_⟩, fun k => ?_⟩
      · exact found k (Handle.mem_sorted.mpr (List.mem_flatMap.mpr ⟨i, hi, hk⟩))
      · generalize (Handle.sorted (p.mentions t)).zip vs = entries at handles entry
        have listed : k ∈ p.mentions t ↔ ∃ v, (k, v) ∈ entries := by
          rw [← Handle.mem_sorted, ← handles]
          simp
        rw [listed]
        simp only [List.mem_map, List.mem_filter, Table.IsTemporary]
        constructor
        · rintro ⟨⟨k', v⟩, ⟨hm, temporary⟩, rfl⟩
          exact ⟨⟨v, hm⟩, v, entry _ hm, temporary⟩
        · rintro ⟨⟨v, hm⟩, v', hv', temporary⟩
          have same := entry _ hm
          rw [hv', Option.some.injEq] at same
          exact ⟨(k, v), ⟨hm, same ▸ temporary⟩, rfl⟩
  · cases h

/-- Each temporary is listed once. -/
theorem nodup_temporaries {hs : List Handle} (h : (p.temporaries t).toOption = some hs) :
    hs.Nodup := by
  simp only [temporaries, Outcome.toOption_bind, toOption_references] at h
  split at h
  · simp only [Option.bind_some, Outcome.toOption_mapM, Option.bind_eq_some_iff,
      Outcome.toOption_pure, Option.some.injEq] at h
    obtain ⟨vs, hvs, rfl⟩ := h
    have nodup := Handle.nodup_sorted (p.mentions t)
    rw [← (Outcome.zip_of_mapM hvs).1] at nodup
    exact (List.filter_sublist.map Prod.fst).nodup nodup
  · cases h

theorem isSome_temporaries (covered : ∀ i ∈ p.instructions, i.Covered t) :
    (p.temporaries t).toOption.isSome := by
  obtain ⟨vs, hvs⟩ := Option.isSome_iff_exists.mp (isSome_mapM_fetch covered)
  simp only [temporaries, Outcome.toOption_bind, toOption_references]
  rw [if_pos fun i hi => (covered i hi).range, Option.bind_some, hvs]
  rfl

/-- The temporaries of a kind are those among the temporaries that have it. -/
theorem toOption_temporariesOf {hs : List Handle} (listed : (p.temporaries t).toOption = some hs)
    (kind : Kind) :
    (p.temporariesOf t kind).toOption = some (hs.filter (t.kind? · = some kind)) := by
  have kinds (h : Handle) (hh : h ∈ hs) :
      (do return (← t.fetchKind h) = kind : Outcome Bool) = .ok (decide (t.kind? h = some kind)) := by
    obtain ⟨v, hv, -⟩ := (((temporaries_spec listed).2 h).mp hh).2
    rw [← Outcome.toOption_eq_some]
    simp [Table.kind?, hv]
  simp only [temporariesOf, Outcome.toOption_bind, listed, Option.bind_some,
    Outcome.filterM_eq_filter kinds]
  rfl

theorem isSome_countTemporaries (covered : ∀ i ∈ p.instructions, i.Covered t) :
    (p.countTemporaries t).toOption.isSome := by
  obtain ⟨hs, hhs⟩ := Option.isSome_iff_exists.mp (isSome_temporaries covered)
  have kinds : (hs.mapM t.fetchKind).toOption.isSome := by
    rw [Outcome.toOption_mapM]
    refine Outcome.isSome_mapM.mpr fun h hh => ?_
    obtain ⟨v, hv, -⟩ := (((temporaries_spec hhs).2 h).mp hh).2
    simp [Table.kind?, hv]
  obtain ⟨ks, hks⟩ := Option.isSome_iff_exists.mp kinds
  simp only [countTemporaries, Outcome.toOption_bind, hhs, Option.bind_some, hks]
  rfl

end Program

namespace Usage

variable {p : Program} {t : Table} {u : Usage}

/-- What the usage of a program says about it. -/
structure Describes (u : Usage) (p : Program) (t : Table) : Prop where
  touched : u.touched = p.instructions.map (·.mentions t)
  handle : u.entries.map Prod.fst = Handle.sorted (p.mentions t)
  entry : ∀ pair ∈ u.entries, t.get? pair.1 = some pair.2

theorem describes_of_ofProgram (h : (ofProgram p t).toOption = some u) : u.Describes p t := by
  simp only [ofProgram, Outcome.toOption_bind, Program.toOption_mapM_references] at h
  split at h
  · simp only [Option.bind_some, Outcome.toOption_mapM, Table.toOption_fetch,
      Option.bind_eq_some_iff, Outcome.toOption_pure, Option.some.injEq] at h
    obtain ⟨vs, hvs, rfl⟩ := h
    obtain ⟨handle, entry⟩ := Outcome.zip_of_mapM hvs
    exact ⟨rfl, handle, entry⟩
  · cases h

theorem isSome_ofProgram (covered : ∀ i ∈ p.instructions, i.Covered t) :
    (ofProgram p t).toOption.isSome := by
  simp only [ofProgram, Outcome.toOption_bind, Program.toOption_mapM_references]
  rw [if_pos fun i hi => (covered i hi).range, Option.bind_some, Outcome.toOption_mapM]
  obtain ⟨vs, hvs⟩ := Option.isSome_iff_exists.mp (Program.isSome_mapM_fetch covered)
  rw [Program.mentions, List.flatMap_def, Outcome.toOption_mapM] at hvs
  rw [hvs]
  rfl

theorem mem_occurrences {h : Handle} {j : Nat} :
    j ∈ u.occurrences h ↔ ∃ hs, u.touched[j]? = some hs ∧ h ∈ hs := by
  simp only [occurrences, List.mem_map, List.mem_filter, Prod.exists, List.contains_iff_mem]
  constructor
  · rintro ⟨hs, j, ⟨hm, hh⟩, rfl⟩
    exact ⟨hs, List.mem_zipIdx_iff_getElem?.mp hm, hh⟩
  · rintro ⟨hs, hm, hh⟩
    exact ⟨hs, j, ⟨List.mem_zipIdx_iff_getElem?.mpr hm, hh⟩, rfl⟩

theorem pairwise_occurrences (u : Usage) (h : Handle) : (u.occurrences h).Pairwise (· < ·) := by
  have all : (u.touched.zipIdx.map Prod.snd).Pairwise (· < ·) := by
    rw [List.zipIdx_map_snd]
    exact List.pairwise_lt_range' 1
  exact all.sublist (List.filter_sublist.map Prod.snd)

/-- An ascending list lies between its first and its last element. -/
theorem bounds_of_pairwise {first : Nat} {rest : List Nat} (hp : (first :: rest).Pairwise (· < ·)) :
    ∀ j ∈ first :: rest, first ≤ j ∧ j ≤ rest.getLastD first := by
  induction rest generalizing first with
  | nil => simp
  | cons next rest ih =>
      obtain ⟨less, hp⟩ := List.pairwise_cons.mp hp
      have later := less next List.mem_cons_self
      have bounds := ih hp
      rw [List.getLastD_cons]
      intro j hj
      rcases List.mem_cons.mp hj with rfl | hj
      · have := (bounds next List.mem_cons_self).2
        omega
      · have := bounds j hj
        omega

/-- The interval of a handle between its first and its last occurrence. -/
def interval? (u : Usage) (h : Handle) : Option Interval :=
  match u.occurrences h with
  | [] => none
  | first :: rest => some ⟨h, first, rest.getLastD first⟩

theorem interval?_spec {h : Handle} {x : Interval} (hx : u.interval? h = some x) :
    x.handle = h ∧ x.first ≤ x.last ∧ ∀ j ∈ u.occurrences h, x.first ≤ j ∧ j ≤ x.last := by
  unfold interval? at hx
  split at hx
  · cases hx
  · next first rest occurrences =>
      cases hx
      have bounds := bounds_of_pairwise (occurrences ▸ u.pairwise_occurrences h)
      refine ⟨rfl, (bounds first List.mem_cons_self).2, fun j hj => bounds j ?_⟩
      rwa [← occurrences]

theorem mem_occurrences_of_interval? {h : Handle} {x : Interval} (hx : u.interval? h = some x) :
    x.first ∈ u.occurrences h ∧ x.last ∈ u.occurrences h := by
  unfold interval? at hx
  split at hx
  · cases hx
  · next first rest occurrences =>
      cases hx
      rw [occurrences]
      exact ⟨List.mem_cons_self, List.getLastD_mem_cons⟩

theorem perm_intervals (u : Usage) (kind : Kind) :
    (u.intervals kind).Perm ((u.entries.filter fun pair => pair.2.temporary && pair.2.kind = kind).filterMap
      fun pair => u.interval? pair.1) :=
  Interval.perm_sortByFirst _

namespace Describes

variable (desc : u.Describes p t) {kind : Kind}

include desc

/-- The intervals are those of temporaries of the kind. -/
theorem of_mem_intervals {x : Interval} (hx : x ∈ u.intervals kind) :
    u.interval? x.handle = some x ∧
      ∃ v, t.get? x.handle = some v ∧ v.temporary = true ∧ v.kind = kind := by
  rw [(u.perm_intervals kind).mem_iff] at hx
  obtain ⟨⟨h, v⟩, hm, hx⟩ := List.mem_filterMap.mp hx
  obtain ⟨entry, temporary⟩ := List.mem_filter.mp hm
  obtain rfl := (interval?_spec hx).1
  simp only [Bool.and_eq_true, decide_eq_true_eq] at temporary
  exact ⟨hx, v, desc.entry _ entry, temporary⟩

theorem isTemporary {h : Handle} (hh : h ∈ (u.intervals kind).map Interval.handle) :
    t.IsTemporary h ∧ t.kind? h = some kind := by
  obtain ⟨x, hx, rfl⟩ := List.mem_map.mp hh
  obtain ⟨-, v, hv, temporary, rfl⟩ := desc.of_mem_intervals hx
  exact ⟨⟨v, hv, temporary⟩, by simp [Table.kind?, hv]⟩

theorem mem_mentions {x : Interval} (hx : x ∈ u.intervals kind) : x.handle ∈ p.mentions t := by
  rw [(u.perm_intervals kind).mem_iff] at hx
  obtain ⟨entry, hm, hx⟩ := List.mem_filterMap.mp hx
  rw [(interval?_spec hx).1, ← Handle.mem_sorted, ← desc.handle]
  exact List.mem_map_of_mem (List.mem_filter.mp hm).1

/-- The intervals before they are sorted stand in the order of the handles. -/
theorem ascending_intervals (kind : Kind) :
    ((u.entries.filter fun pair => pair.2.temporary && pair.2.kind = kind).filterMap
      fun pair => u.interval? pair.1).Pairwise fun a b => a.handle.index < b.handle.index := by
  have handles : (u.entries.map Prod.fst).Pairwise fun a b => a.index < b.index := by
    rw [desc.handle]
    exact Handle.pairwise_sorted _
  refine ((List.pairwise_map.mp handles).sublist List.filter_sublist).filterMap _
    fun a b less x hx y hy => ?_
  rwa [(interval?_spec hx).1, (interval?_spec hy).1]

/-- The intervals stand in the order of first use. -/
theorem pairwise_intervals (kind : Kind) : (u.intervals kind).Pairwise Interval.Precedes :=
  Interval.pairwise_sortByFirst (desc.ascending_intervals kind)

/-- Every temporary of the kind that the program mentions has an interval. -/
theorem mem_handles_iff {h : Handle} :
    h ∈ (u.intervals kind).map Interval.handle ↔
      h ∈ p.mentions t ∧ t.IsTemporary h ∧ t.kind? h = some kind := by
  constructor
  · intro hh
    obtain ⟨x, hx, rfl⟩ := List.mem_map.mp hh
    exact ⟨desc.mem_mentions hx, desc.isTemporary hh⟩
  · rintro ⟨mentioned, ⟨v, hv, temporary⟩, hk⟩
    have listed := mentioned
    rw [← Handle.mem_sorted, ← desc.handle] at listed
    obtain ⟨⟨h, v'⟩, entry, rfl⟩ := List.mem_map.mp listed
    obtain rfl : v' = v := Option.some.inj ((desc.entry _ entry).symm.trans hv)
    obtain ⟨i, hi, mentioned⟩ := List.mem_flatMap.mp mentioned
    obtain ⟨j, hj⟩ := List.mem_iff_getElem?.mp hi
    have occurs : j ∈ u.occurrences h :=
      mem_occurrences.mpr ⟨i.mentions t, by simp [desc.touched, hj], mentioned⟩
    obtain ⟨x, hx⟩ : ∃ x, u.interval? h = some x := by
      unfold interval?
      split
      · next none => simp [none] at occurs
      · exact ⟨_, rfl⟩
    refine List.mem_map.mpr ⟨x, (u.perm_intervals kind).mem_iff.mpr ?_, (interval?_spec hx).1⟩
    refine List.mem_filterMap.mpr ⟨_, List.mem_filter.mpr ⟨entry, ?_⟩, hx⟩
    simpa [temporary, Table.kind?, hv] using hk

theorem spans {x : Interval} (hx : x ∈ u.intervals kind) : x.Spans t p.instructions := by
  have interval := (desc.of_mem_intervals hx).1
  have place {j : Nat} (occurs : j ∈ u.occurrences x.handle) :
      ∃ i, p.instructions[j]? = some i ∧ x.handle ∈ i.mentions t := by
    obtain ⟨hs, listed, hh⟩ := mem_occurrences.mp occurs
    rw [desc.touched, List.getElem?_map, Option.map_eq_some_iff] at listed
    obtain ⟨i, hi, rfl⟩ := listed
    exact ⟨i, hi, hh⟩
  refine ⟨place (mem_occurrences_of_interval? interval).1,
    place (mem_occurrences_of_interval? interval).2, fun j i hi mentioned => ?_⟩
  refine (interval?_spec interval).2.2 j (mem_occurrences.mpr ⟨i.mentions t, ?_, mentioned⟩)
  simp [desc.touched, hi]

/-- The intervals of a kind are the spans of its temporaries. -/
theorem mem_intervals_iff {x : Interval} :
    x ∈ u.intervals kind ↔
      t.IsTemporary x.handle ∧ t.kind? x.handle = some kind ∧ x.Spans t p.instructions := by
  constructor
  · intro hx
    obtain ⟨temporary, hk⟩ := desc.isTemporary (List.mem_map_of_mem hx)
    exact ⟨temporary, hk, desc.spans hx⟩
  · rintro ⟨temporary, hk, spans⟩
    obtain ⟨i, hi, mentioned⟩ := spans.first
    have listed := desc.mem_handles_iff.mpr
      ⟨List.mem_flatMap.mpr ⟨i, List.mem_of_getElem? hi, mentioned⟩, temporary, hk⟩
    obtain ⟨y, hy, same⟩ := List.mem_map.mp listed
    rwa [spans.unique (desc.spans hy) same.symm]

theorem nodup_intervals (kind : Kind) : ((u.intervals kind).map Interval.handle).Nodup := by
  rw [((u.perm_intervals kind).map Interval.handle).nodup_iff, List.Nodup, List.pairwise_map]
  refine (desc.ascending_intervals kind).imp fun less same => ?_
  rw [same] at less
  exact Nat.lt_irrefl _ less

/-- The interval of a temporary contains every instruction that mentions it. -/
theorem bounds {x : Interval} (hx : x ∈ u.intervals kind) {done rest : List Instruction}
    {i : Instruction} (split : p.instructions = done ++ i :: rest) (hm : x.handle ∈ i.mentions t) :
    x.first ≤ done.length ∧ done.length ≤ x.last :=
  (desc.spans hx).bounds _ i (by simp [split]) hm

theorem first_le_last {x : Interval} (hx : x ∈ u.intervals kind) : x.first ≤ x.last :=
  (interval?_spec (desc.of_mem_intervals hx).1).2.1

end Describes
end Usage
end MatrixCode
