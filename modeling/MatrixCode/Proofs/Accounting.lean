import MatrixCode.Proofs.Consistency
import MatrixCode.Proofs.Passes

/-!
The accounts of the optimizer. A temporary goes out of use when it becomes an expression, when
its final copy is dropped, or when another one takes over for it; whatever the policy and the
folder, each of these takes exactly that temporary off the books. So what the report counts is
what the program lost, and what is live afterwards is what was live without it.
-/

namespace MatrixCode

namespace Counts

theorem total_bump (c : Counts) {kind : Kind} (hk : kind ≠ .sequence) :
    (c.bump kind).total = c.total + 1 := by
  cases kind with
  | integer | double | matrix => simp only [bump, add, total]; omega
  | sequence => exact absurd rfl hk

theorem total_foldl_bump (c : Counts) {kinds : List Kind} (plain : ∀ kind ∈ kinds, kind ≠ .sequence) :
    (kinds.foldl bump c).total = c.total + kinds.length := by
  induction kinds generalizing c with
  | nil => rfl
  | cons kind kinds ih =>
      obtain ⟨head, tail⟩ := List.forall_mem_cons.mp plain
      rw [List.foldl_cons, ih _ tail, total_bump c head, List.length_cons]
      omega

end Counts

/-- The count of temporaries has each of them once, whatever its kind. -/
theorem Program.total_countTemporaries {p : Program} {t : Table} {hs : List Handle} {c : Counts}
    (listed : (p.temporaries t).toOption = some hs)
    (counted : (p.countTemporaries t).toOption = some c)
    (plain : ∀ h ∈ hs, t.kind? h ≠ some .sequence) : c.total = hs.length := by
  simp only [countTemporaries, Outcome.toOption_bind, listed, Option.bind_some, Outcome.toOption_mapM,
    Outcome.toOption_pure, Option.bind_eq_some_iff, Option.some.injEq] at counted
  obtain ⟨kinds, found, rfl⟩ := counted
  have kindOf (h : Handle) (hh : h ∈ hs) :
      (t.fetchKind h).toOption = some ((t.kind? h).getD .sequence) := by
    have known := Outcome.isSome_of_mapM found h hh
    rw [Table.toOption_fetchKind] at known ⊢
    obtain ⟨kind, hk⟩ := Option.isSome_iff_exists.mp known
    rw [hk, Option.getD_some]
  obtain rfl : hs.map (fun h => (t.kind? h).getD .sequence) = kinds :=
    Option.some.inj ((Outcome.mapM_eq_map kindOf).symm.trans found)
  rw [Counts.total_foldl_bump, List.length_map]
  · exact Nat.zero_add _
  · intro kind hk
    obtain ⟨h, hh, rfl⟩ := List.mem_map.mp hk
    have here := kindOf h hh
    rw [Table.toOption_fetchKind] at here
    exact fun sequence => plain h hh (here.trans (congrArg some sequence))

namespace Workspace

/-- The workspaces that come about from one without temporaries, by what is done to the books and
to the table: variables are entered, temporaries are made and released, one of them becomes an
expression, ranges are renamed, and what was made is undone. -/
inductive Managed : Workspace → Prop where
  | start (t : Table) : Managed ⟨t, ⟨.zero, .zero, []⟩⟩
  | extend {w : Workspace} (managed : Managed w) {t : Table} (ext : w.table.Extends t) :
      Managed { w with table := t }
  | create {w : Workspace} (managed : Managed w) (kind : Kind) : Managed (w.create kind).2
  | release {w : Workspace} (managed : Managed w) (h : Handle) : Managed (w.release h)
  | fold {w : Workspace} (managed : Managed w) (h : Handle) (e : ScalarText) : Managed (w.fold h e)
  | rename {w : Workspace} (managed : Managed w) (source target : Handle) (hs : List Handle) :
      Managed { w with table := w.table.renameWithin source target hs }
  | rollback {w : Workspace} (managed : Managed w) (c : Checkpoint) : Managed (w.rollback c)

theorem live_release (w : Workspace) (h : Handle) :
    (w.release h).temporaries.live = w.temporaries.live.erase h := by
  unfold release
  split
  · rfl
  · next free => rw [List.erase_of_not_mem (by simpa using free)]

theorem live_fold (w : Workspace) (h : Handle) (e : ScalarText) :
    (w.fold h e).temporaries.live = w.temporaries.live.erase h :=
  w.live_release h

/-- What is live is live once, and as it was made. -/
structure Intact (w : Workspace) : Prop where
  nodup : w.temporaries.live.Nodup
  made : ∀ h ∈ w.temporaries.live, ∃ created kind, w.table.get? h = some (nextTemporary created kind)

namespace Intact

variable {w : Workspace}

theorem of_sublist (intact : w.Intact) {w' : Workspace}
    (fewer : w'.temporaries.live.Sublist w.temporaries.live)
    (same : ∀ h ∈ w'.temporaries.live, w'.table.get? h = w.table.get? h) : w'.Intact where
  nodup := intact.nodup.sublist fewer
  made h hh := by
    obtain ⟨created, kind, made⟩ := intact.made h (fewer.subset hh)
    exact ⟨created, kind, (same h hh).trans made⟩

theorem create (intact : w.Intact) (kind : Kind) : (w.create kind).2.Intact where
  nodup := intact.nodup.insert
  made h hh := by
    rw [temporaries_create, List.mem_insert_iff] at hh
    rw [get?_create]
    split
    · exact ⟨_, kind, rfl⟩
    · next other => exact intact.made h (hh.resolve_left other)

theorem notMem_fold (intact : w.Intact) (h : Handle) (e : ScalarText) :
    h ∉ (w.fold h e).temporaries.live := by
  rw [live_fold]
  exact intact.nodup.not_mem_erase

end Intact

theorem Managed.intact {w : Workspace} (managed : w.Managed) : w.Intact := by
  induction managed with
  | start t => exact ⟨.nil, by simp⟩
  | @extend w _ t ext intact =>
      refine ⟨intact.nodup, fun h hh => ?_⟩
      obtain ⟨created, kind, made⟩ := intact.made h hh
      exact ⟨created, kind, ext h _ made⟩
  | create _ kind intact => exact intact.create kind
  | @release w _ h intact =>
      refine intact.of_sublist ?_ fun k _ => by rw [table_release]
      rw [live_release]
      exact List.erase_sublist
  | @fold w _ h e intact =>
      have gone := intact.notMem_fold h e
      refine intact.of_sublist ?_ fun k hk => ?_
      · rw [live_fold]
        exact List.erase_sublist
      · rw [Folding.table_fold, Table.get?_modify, if_neg]
        rintro rfl
        exact gone hk
  | @rename w _ source target hs intact =>
      refine ⟨intact.nodup, fun h hh => ?_⟩
      obtain ⟨created, kind, made⟩ := intact.made h hh
      refine ⟨created, kind, ?_⟩
      rw [Table.get?_renameWithin, made, Option.map_some,
        Variable.mapRange_of_kind (nextTemporary_numbered created kind).1, ite_self]
  | @rollback w _ c intact =>
      refine intact.of_sublist List.filter_sublist fun h hh => ?_
      have inside := of_decide_eq_true (List.mem_filter.mp hh).2
      change (w.table.entries.take c.tableSize)[h.index]? = w.table.entries[h.index]?
      rw [Array.take_eq_extract, Array.getElem?_extract, Nat.zero_add, Nat.sub_zero]
      split
      · rfl
      · rw [Array.getElem?_eq_none (by omega)]

theorem Made.managed {w w' : Workspace} (made : Made w w') (managed : w.Managed) : w'.Managed := by
  cases made with
  | same => exact managed
  | created kind => exact managed.create kind
  | undone => exact managed.rollback _

end Workspace

theorem Draft.Step.managed {folder : Folder} {d d' : Draft} (step : Step folder d d')
    (managed : d.workspace.Managed) : d'.workspace.Managed := by
  cases step with
  | fold h e _ => exact managed.fold h e
  | restrict p kept => exact managed
  | replace hs ht => exact (managed.rename _ _ _).release _

theorem Draft.Extended.managed {d d' : Draft} (extended : d.Extended d')
    (managed : d.workspace.Managed) : d'.workspace.Managed := by
  cases extended with
  | failed made | pushed made fits o => exact made.managed managed

namespace Draft

/-- The program of the draft mentions the temporary. -/
def HasTemporary (d : Draft) (h : Handle) : Prop :=
  h ∈ d.program.mentions d.workspace.table ∧ d.workspace.table.IsTemporary h

/-- The temporaries of the program are on the books. -/
structure Booked (d : Draft) : Prop where
  managed : d.workspace.Managed
  live : ∀ h, d.HasTemporary h → h ∈ d.workspace.temporaries.live

/-- These temporaries go out of use and off the books, and all others stay. -/
structure Retires (xs : List Handle) (d d' : Draft) : Prop where
  nodup : xs.Nodup
  used : ∀ h ∈ xs, d.HasTemporary h
  left : ∀ h, d'.HasTemporary h ↔ d.HasTemporary h ∧ h ∉ xs
  live : ∀ h, h ∈ d'.workspace.temporaries.live ↔ h ∈ d.workspace.temporaries.live ∧ h ∉ xs

variable {d d' d'' : Draft} {xs ys : List Handle}

/-- A temporary on the books is as it was made. -/
theorem Booked.made (booked : d.Booked) {h : Handle} (has : d.HasTemporary h) :
    ∃ v, d.workspace.table.get? h = some v ∧ v.constant = false ∧ v.kind ≠ .sequence := by
  obtain ⟨created, kind, made⟩ := booked.managed.intact.made h (booked.live h has)
  exact ⟨_, made, (Workspace.nextTemporary_spec created kind).2.2.1,
    (Workspace.nextTemporary_numbered created kind).1⟩

theorem Booked.kind?_ne (booked : d.Booked) {h : Handle} (has : d.HasTemporary h) :
    d.workspace.table.kind? h ≠ some .sequence := by
  obtain ⟨v, hv, -, plain⟩ := booked.made has
  simpa [Table.kind?, hv] using plain

theorem Booked.mem_erase_iff (booked : d.Booked) {source h : Handle} :
    h ∈ d.workspace.temporaries.live.erase source ↔
      h ∈ d.workspace.temporaries.live ∧ h ∉ [source] := by
  rw [booked.managed.intact.nodup.mem_erase_iff, List.mem_singleton, and_comm]

namespace Retires

theorem refl (d : Draft) : Retires [] d d := ⟨.nil, by simp, by simp, by simp⟩

theorem trans (first : Retires xs d d') (second : Retires ys d' d'') : Retires (xs ++ ys) d d'' where
  nodup := first.nodup.append second.nodup fun h hx hy => ((first.left h).mp (second.used h hy)).2 hx
  used h hh := (List.mem_append.mp hh).elim (first.used h) fun hy =>
    ((first.left h).mp (second.used h hy)).1
  left h := by rw [second.left, first.left, List.mem_append, not_or, and_assoc]
  live h := by rw [second.live, first.live, List.mem_append, not_or, and_assoc]

theorem booked (retires : Retires xs d d') (booked : d.Booked) (managed : d'.workspace.Managed) :
    d'.Booked where
  managed := managed
  live h has := by
    obtain ⟨before, kept⟩ := (retires.left h).mp has
    exact (retires.live h).mpr ⟨booked.live h before, kept⟩

/-- What is off the books is what has gone out of use. -/
theorem mem_live_iff (retires : Retires xs d d') (h : Handle) :
    h ∈ d'.workspace.temporaries.live ↔
      h ∈ d.workspace.temporaries.live ∧ ¬(d.HasTemporary h ∧ ¬d'.HasTemporary h) := by
  have used := retires.used h
  rw [retires.live, retires.left]
  tauto

/-- The program has as many temporaries less. -/
theorem length_eq (retires : Retires xs d d') {hs hs' : List Handle}
    (listed : (d.program.temporaries d.workspace.table).toOption = some hs)
    (listed' : (d'.program.temporaries d'.workspace.table).toOption = some hs') :
    hs.length = hs'.length + xs.length := by
  have mem := (Program.temporaries_spec listed).2
  have mem' := (Program.temporaries_spec listed').2
  have apart : hs'.Disjoint xs := fun h left gone => ((retires.left h).mp ((mem' h).mp left)).2 gone
  have perm : hs.Perm (hs' ++ xs) := by
    refine (List.perm_ext_iff_of_nodup (Program.nodup_temporaries listed)
      ((Program.nodup_temporaries listed').append retires.nodup apart)).mpr fun h => ?_
    have used := retires.used h
    have left := retires.left h
    rw [List.mem_append, mem, mem']
    change d.HasTemporary h ↔ d'.HasTemporary h ∨ h ∈ xs
    tauto
  simpa using perm.length_eq

end Retires

/-- A variable that gives way to another one is mentioned no more. -/
theorem hasTemporary_replace {source target : Handle}
    (kind : d.workspace.table.kind? source = d.workspace.table.kind? target)
    (sequence : d.workspace.table.kind? source ≠ some .sequence) (other : target ≠ source)
    (known : d.workspace.table.IsTemporary target → d.HasTemporary target) (h : Handle) :
    (d.replace source target).HasTemporary h ↔ d.HasTemporary h ∧ h ∉ [source] := by
  rw [HasTemporary, (RenamedBy.replace d target sequence).mem_mentions_iff (.replace kind sequence),
    isTemporary_replace, List.mem_singleton]
  constructor
  · rintro ⟨⟨k, hk, rfl⟩, temporary⟩
    by_cases same : k = source
    · rw [Handle.replace, if_pos same] at temporary ⊢
      exact ⟨known temporary, other⟩
    · rw [Handle.replace, if_neg same] at temporary ⊢
      exact ⟨⟨hk, temporary⟩, same⟩
  · rintro ⟨⟨mentioned, temporary⟩, different⟩
    exact ⟨⟨h, mentioned, if_neg different⟩, temporary⟩

theorem live_replace (d : Draft) (source target : Handle) :
    (d.replace source target).workspace.temporaries.live =
      d.workspace.temporaries.live.erase source :=
  Workspace.live_release _ source

theorem managed_replace (managed : d.workspace.Managed) (source target : Handle) :
    (d.replace source target).workspace.Managed :=
  (managed.rename source target d.program.ranges).release source

/-- One temporary takes over for another one. -/
theorem Booked.retires_replace (booked : d.Booked) {source target : Handle}
    (kind : d.workspace.table.kind? source = d.workspace.table.kind? target)
    (other : target ≠ source) (has : d.HasTemporary source) (known : d.HasTemporary target) :
    Retires [source] d (d.replace source target) where
  nodup := List.nodup_singleton source
  used h hh := List.mem_singleton.mp hh ▸ has
  left := hasTemporary_replace kind (booked.kind?_ne has) other fun _ => known
  live h := by rw [live_replace, booked.mem_erase_iff]

/-- Temporaries take over for others, which are all different and none of those that take over. -/
theorem Booked.retires_replaceAll {plan : List (Handle × Handle)} (booked : d.Booked)
    (nodup : (plan.map Prod.fst).Nodup) (apart : ∀ pair ∈ plan, pair.2 ∉ plan.map Prod.fst)
    (used : ∀ pair ∈ plan, d.HasTemporary pair.1 ∧ d.HasTemporary pair.2 ∧
      d.workspace.table.kind? pair.1 = d.workspace.table.kind? pair.2) :
    Retires (plan.map Prod.fst) d (plan.foldl (fun d (later, earlier) => d.replace later earlier) d) := by
  induction plan generalizing d with
  | nil => exact .refl d
  | cons pair plan ih =>
      obtain ⟨later, earlier⟩ := pair
      obtain ⟨⟨has, known, kind⟩, others⟩ := List.forall_mem_cons.mp used
      obtain ⟨own, distinct⟩ := List.nodup_cons.mp nodup
      obtain ⟨head, tail⟩ := List.forall_mem_cons.mp apart
      have other : earlier ≠ later := fun same => head (same ▸ List.mem_cons_self)
      have first := booked.retires_replace kind other has known
      have after := first.booked booked (managed_replace booked.managed later earlier)
      refine first.trans (ih after distinct (fun pair hp hm => tail pair hp (List.mem_cons_of_mem _ hm))
        fun pair hp => ?_)
      obtain ⟨has, known, kind⟩ := others pair hp
      rw [kind?_replace, kind?_replace]
      refine ⟨(first.left _).mpr ⟨has, ?_⟩, (first.left _).mpr ⟨known, ?_⟩, kind⟩
      · rw [List.mem_singleton]
        exact fun same => own (same ▸ List.mem_map_of_mem hp)
      · rw [List.mem_singleton]
        exact fun same => tail pair hp (same ▸ List.mem_cons_self)

end Draft

theorem Instruction.Copies.mentions {t : Table} {i : Instruction} {source target : Handle}
    (c : i.Copies t source target) : i.mentions t = [source, target] := by
  obtain ⟨-, -, -, -, -, -, rfl⟩ := c.form
  rfl

theorem Instruction.Computes.mentions {t : Table} {i : Instruction} {o : Handle}
    (c : i.Computes t o) : i.mentions t = i.inputs ++ [o] := by
  simp [Instruction.mentions, sources, items, c.range, c.blocks, c.output]

theorem Instruction.mentions_congr {t t' : Table} (same : ∀ h, t'.content? h = t.content? h)
    (i : Instruction) : i.mentions t' = i.mentions t := by
  rw [mentions, mentions, sources_congr same]

namespace Draft

variable {d : Draft}

/-- The source of a final copy goes out of use with it. -/
theorem Booked.retires_dropTrailingCopy (booked : d.Booked) {body : List Instruction}
    {last : Instruction} {source target : Handle}
    (ends : d.program.EndsInCopy d.workspace.table body last source target)
    (copies : last.Copies d.workspace.table source target) :
    Retires [source] d (d.dropTrailingCopy source target) := by
  have shorter : d.withoutLast.program.instructions = body := by simp [withoutLast, ends.split]
  have mentions (h : Handle) : h ∈ d.program.mentions d.workspace.table ↔
      h ∈ d.withoutLast.program.mentions d.workspace.table ∨ h = source ∨ h = target := by
    rw [Program.mentions, Program.mentions, ends.split, shorter, List.flatMap_append,
      List.flatMap_singleton, List.mem_append, copies.mentions, List.mem_pair]
  have has : d.HasTemporary source := ⟨(mentions _).mpr (.inr (.inl rfl)), ends.temporary⟩
  have other : target ≠ source := by
    rintro rfl
    exact ends.user ends.temporary
  have replaced := hasTemporary_replace (d := d.withoutLast) ends.kind copies.kind_source other
    fun temporary => absurd temporary ends.user
  refine ⟨List.nodup_singleton _, fun h hh => List.mem_singleton.mp hh ▸ has, fun h => ?_, fun h => ?_⟩
  · refine (replaced h).trans ?_
    rw [List.mem_singleton, HasTemporary, HasTemporary, mentions]
    constructor
    · rintro ⟨⟨mentioned, temporary⟩, different⟩
      exact ⟨⟨.inl mentioned, temporary⟩, different⟩
    · rintro ⟨⟨mentioned | same | rfl, temporary⟩, different⟩
      · exact ⟨⟨mentioned, temporary⟩, different⟩
      · exact absurd same different
      · exact absurd temporary ends.user
  · have live : (d.dropTrailingCopy source target).workspace.temporaries.live =
        d.workspace.temporaries.live.erase source := live_replace d.withoutLast source target
    rw [live, booked.mem_erase_iff]

/-- The output of an instruction on what is known goes out of use with it. -/
theorem Booked.retires_fold {w : Workspace} {done rest : List Instruction} {i : Instruction}
    {o : Handle} {out : Option Handle} (booked : Booked ⟨w, ⟨done ++ i :: rest, out⟩⟩)
    (computes : i.Computes w.table o) (known : ∀ k ∈ i.inputs, ¬w.table.IsTemporary k)
    (e : ScalarText) :
    Retires [o] ⟨w, ⟨done ++ i :: rest, out⟩⟩ ⟨w.fold o e, ⟨done ++ rest, out⟩⟩ := by
  have mentions (h : Handle) : h ∈ Program.mentions w.table ⟨done ++ i :: rest, out⟩ ↔
      h ∈ Program.mentions w.table ⟨done ++ rest, out⟩ ∨ h ∈ i.inputs ∨ h = o := by
    simp only [Program.mentions, List.flatMap_append, List.flatMap_cons, computes.mentions,
      List.mem_append, List.mem_singleton]
    tauto
  have unmoved : Program.mentions (w.fold o e).table = Program.mentions w.table := by
    funext p
    exact List.flatMap_congr fun i _ => Instruction.mentions_congr (Folding.content?_fold w o e) i
  have temporary (h : Handle) : (w.fold o e).table.IsTemporary h ↔ w.table.IsTemporary h ∧ h ≠ o := by
    rw [Folding.table_fold]
    constructor
    · intro after
      refine ⟨Table.isTemporary_of_foldInto after, ?_⟩
      rintro rfl
      exact w.table.not_isTemporary_foldInto h _ _ after
    · rintro ⟨before, other⟩
      rwa [Table.IsTemporary, Table.get?_modify, if_neg other]
  refine ⟨List.nodup_singleton o, fun h hh => ?_, fun h => ?_, fun h => ?_⟩
  · obtain rfl := List.mem_singleton.mp hh
    exact ⟨(mentions h).mpr (.inr (.inr rfl)), computes.temporary⟩
  · simp only [HasTemporary, unmoved, temporary, mentions, List.mem_singleton]
    have known := known h
    tauto
  · rw [← booked.mem_erase_iff, ← Workspace.live_fold w o e]

end Draft

namespace Sharing

/-- Every temporary hands its storage on or takes over that of another one. -/
theorem perm_plan (strict : Bool) (xs : List Interval) :
    ((plan strict xs).map Prod.fst ++ (keepers strict xs).map Interval.handle).Perm
      (xs.map Interval.handle) := by
  fun_induction plan strict xs with
  | case1 => simp [keepers]
  | case2 x xs split ih =>
      have perm := (perm_takeOver strict x.last xs).map Interval.handle
      rw [List.map_append] at perm
      rw [keepers, List.map_append, List.map_map, List.append_assoc, List.map_cons, List.map_cons]
      exact (List.perm_middle.append_left _).trans (List.perm_middle.trans
        (((ih.append_left _).trans perm).cons _))

theorem mem_keepers_of_mem_plan {strict : Bool} {xs : List Interval} {pair : Handle × Handle}
    (h : pair ∈ plan strict xs) : pair.2 ∈ (keepers strict xs).map Interval.handle := by
  fun_induction plan strict xs with
  | case1 => cases h
  | case2 x xs split ih =>
      rw [keepers]
      rcases List.mem_append.mp h with h | h
      · obtain ⟨y, -, rfl⟩ := List.mem_map.mp h
        exact List.mem_cons_self
      · exact List.mem_cons_of_mem _ (ih h)

end Sharing

/-- The outputs of the instructions that are folded away go out of use, one for each. -/
theorem Folding.retires_run (policy : Policy) (folder : Folder) (w : Workspace)
    (is done : List Instruction) (out : Option Handle) (covered : ∀ i ∈ is, i.Covered w.table)
    (typed : ∀ i ∈ is, i.Typed w.table) (booked : Draft.Booked ⟨w, ⟨done ++ is, out⟩⟩) :
    ∃ xs : List Handle, xs.length = (run policy folder w is).removed ∧
      (run policy folder w is).instructions.length + xs.length = is.length ∧
      Draft.Retires xs ⟨w, ⟨done ++ is, out⟩⟩
        ⟨(run policy folder w is).workspace, ⟨done ++ (run policy folder w is).instructions, out⟩⟩ := by
  fun_induction run policy folder w is generalizing done with
  | case1 w | case2 w last | case3 w i next rest e failed => exact ⟨[], rfl, rfl, .refl _⟩
  | case4 w i next rest kept f ih =>
      have whole (is : List Instruction) : done ++ i :: is = (done ++ [i]) ++ is := by simp
      rw [whole] at booked
      obtain ⟨xs, count, size, retires⟩ := ih (done ++ [i]) (List.forall_mem_cons.mp covered).2
        (List.forall_mem_cons.mp typed).2 booked
      rw [← whole, ← whole] at retires
      refine ⟨xs, count, ?_, retires⟩
      simp only [List.length_cons, f] at size ⊢
      omega
  | case5 w i next rest o e folded f ih =>
      obtain ⟨head, tail⟩ := List.forall_mem_cons.mp covered
      obtain ⟨typedHead, typedTail⟩ := List.forall_mem_cons.mp typed
      obtain ⟨computes, folds⟩ := folds_of_step head typedHead folded
      -- A temporary on the books is not constant, so it is not known to any policy.
      have known (k : Handle) (hk : k ∈ i.inputs) : ¬w.table.IsTemporary k := by
        rintro ⟨v, hv, temporary⟩
        have has : Draft.HasTemporary ⟨w, ⟨done ++ i :: next :: rest, out⟩⟩ k :=
          ⟨List.mem_flatMap.mpr ⟨i, by simp, by simp [computes.mentions, hk]⟩, v, hv, temporary⟩
        obtain ⟨u, hu, constant, -⟩ := booked.made has
        obtain ⟨u', hu', user, -⟩ := folds.user hk fun v' hv' _ => by
          rwa [Option.some.inj (hv'.symm.trans hu)]
        rw [Option.some.inj (hu'.symm.trans hv), temporary] at user
        cases user
      have first := booked.retires_fold computes known e
      have kinds (k : Handle) : (w.fold o e).table.kind? k = w.table.kind? k := by
        rw [Table.kind?_eq_content?, Table.kind?_eq_content?, content?_fold]
      obtain ⟨xs, count, size, retires⟩ := ih done (fun j hj => (tail j hj).congr (content?_fold w o e))
        (fun j hj => (typedTail j hj).congr kinds) (first.booked booked (booked.managed.fold o e))
      refine ⟨[o] ++ xs, ?_, ?_, first.trans retires⟩
      · simp [count, f, Nat.add_comm]
      · simp only [List.length_cons, List.length_append, List.length_nil, f] at size ⊢
        omega

theorem Yields.eq_and_eq {σ α : Type} {x : ExceptT Failure (StateM σ) α} {s s' s'' : σ} {a b : α}
    (first : Yields x s a s') (second : Yields x s b s'') : a = b ∧ s' = s'' := by
  obtain ⟨value, state⟩ := Prod.mk.inj (first.symm.trans second)
  exact ⟨Except.ok.inj value, state⟩

/-- Replacements leave as many instructions as there are. -/
theorem Draft.size_replaceAll (d : Draft) (plan : List (Handle × Handle)) :
    (plan.foldl (fun d (later, earlier) => d.replace later earlier) d).program.size =
      d.program.size := by
  induction plan generalizing d with
  | nil => rfl
  | cons pair plan ih =>
      rw [List.foldl_cons, ih]
      exact List.length_map _

/-- What a pass leaves when it takes some number of temporaries out of use. -/
structure Draft.Spends (n : Nat) (d d' : Draft) : Prop where
  covered : ∀ i ∈ d'.program.instructions, i.Covered d'.workspace.table
  booked : d'.Booked
  retires : ∃ xs : List Handle, xs.length = n ∧ Retires xs d d'

theorem Draft.Spends.trans {d d' d'' : Draft} {n m : Nat} (first : d.Spends n d')
    (second : d'.Spends m d'') : d.Spends (n + m) d'' := by
  obtain ⟨xs, count, retires⟩ := first.retires
  obtain ⟨ys, count', retires'⟩ := second.retires
  exact ⟨second.covered, second.booked, xs ++ ys, by simp [count, count'], retires.trans retires'⟩

namespace Drafting

open Draft (Booked Retires)

variable {d d' : Draft} {n : Nat}

/-- Steps of the optimizer that take temporaries out of use keep the books. -/
theorem booked_of_retires {folder : Folder} {α : Type} {x : Drafting α}
    (steps : StepsBy (Draft.Step folder) x) {a : α}
    {xs : List Handle} (booked : d.Booked) (retires : Retires xs d d') (ran : Yields x d a d') :
    d'.Booked := by
  have managed := steps.keeps (fun _ _ step => step.managed) booked.managed
  rw [show x.run.run d = _ from ran] at managed
  exact retires.booked booked managed

theorem spends_of_foldConstants {policy : Policy} {folder : Folder} (booked : d.Booked)
    (covered : ∀ i ∈ d.program.instructions, i.Covered d.workspace.table)
    (typed : ∀ i ∈ d.program.instructions, i.Typed d.workspace.table)
    (ran : Yields (foldConstants policy folder) d n d') :
    d.program.size = d'.program.size + n ∧ d.Spends n d' := by
  obtain ⟨xs, count, size, retires⟩ := Folding.retires_run policy folder d.workspace
    d.program.instructions [] d.program.output covered typed booked
  obtain ⟨kept, content, -⟩ := d.foldedBy_spec policy folder
  have passed := ran
  rw [Yields, run_foldConstants] at ran
  obtain ⟨outcome, rfl⟩ := Prod.mk.inj ran
  split at outcome
  · cases outcome
  · cases outcome
    refine ⟨(count ▸ size).symm, fun i hi => (covered i (kept hi)).congr content, ?_, xs, count, retires⟩
    exact booked_of_retires (stepsBy_foldConstants policy folder) booked retires passed

theorem spends_of_dropTrailingCopy {dropped : Bool} (booked : d.Booked)
    (covered : ∀ i ∈ d.program.instructions, i.Covered d.workspace.table)
    (copies : ∀ i ∈ d.program.instructions, i.isPlainCopy → ∀ target, i.output = some target →
      ∃ source, i.Copies d.workspace.table source target)
    (ran : Yields dropTrailingCopy d dropped d') :
    d.program.size = d'.program.size + dropped.toNat ∧ d.Spends dropped.toNat d' := by
  obtain ⟨body, last, source, target, ends, ran'⟩ | ⟨-, ran'⟩ :=
    yields_dropTrailingCopy (Program.searchable_of_covered covered)
  · obtain ⟨rfl, rfl⟩ := ran.eq_and_eq ran'
    obtain ⟨source', form⟩ := copies last (by simp [ends.split]) ends.isPlainCopy target ends.output
    obtain rfl : source' = source := by simpa [form.inputs] using ends.input
    have retires := booked.retires_dropTrailingCopy ends form
    refine ⟨?_, Draft.covered_drop ends form covered,
      booked_of_retires (stepsBy_dropTrailingCopy .declining) booked retires ran, [source'], rfl, retires⟩
    change d.program.instructions.length = (d.program.instructions.dropLast.map _).length + 1
    simp [ends.split]
  · obtain ⟨rfl, rfl⟩ := ran.eq_and_eq ran'
    exact ⟨rfl, covered, booked, [], rfl, .refl _⟩

theorem spends_of_shareTemporaries {kind : Kind} (hk : kind ≠ .sequence) (booked : d.Booked)
    (covered : ∀ i ∈ d.program.instructions, i.Covered d.workspace.table)
    (ran : Yields (shareTemporaries kind) d n d') :
    d.program.size = d'.program.size ∧ d.Spends n d' := by
  obtain ⟨u, hu⟩ := Option.isSome_iff_exists.mp (Usage.isSome_ofProgram covered)
  have desc := Usage.describes_of_ofProgram hu
  obtain ⟨_, _, on⟩ := handsOn_of_shareTemporaries covered hk ran
  obtain ⟨rfl, rfl⟩ := ran.eq_and_eq (yields_shareTemporaries hu kind)
  have perm := Sharing.perm_plan (decide (kind = .matrix)) (u.intervals kind)
  obtain ⟨nodup, -, apart⟩ := List.nodup_append'.mp (perm.nodup_iff.mpr (desc.nodup_intervals kind))
  have retires := booked.retires_replaceAll nodup
    (fun pair hp first => apart first (Sharing.mem_keepers_of_mem_plan hp)) fun pair hp => by
      obtain ⟨later, earlier⟩ := Sharing.mem_of_mem_plan hp
      obtain ⟨mentioned, temporary, hk⟩ := desc.mem_handles_iff.mp later
      obtain ⟨mentioned', temporary', hk'⟩ := desc.mem_handles_iff.mp earlier
      exact ⟨⟨mentioned, temporary⟩, ⟨mentioned', temporary'⟩, hk.trans hk'.symm⟩
  exact ⟨(d.size_replaceAll _).symm, on.covered covered,
    booked_of_retires (stepsBy_shareTemporaries .declining kind) booked retires ran, _, List.length_map _, retires⟩

/-- The temporaries of a draft are counted as many as they are. -/
theorem total_of_count (booked : d.Booked) {c : Counts}
    (counted : Yields (query Program.countTemporaries) d c d') :
    d.program.countTemporaries d.workspace.table = .ok c ∧
      ∃ hs, (d.program.temporaries d.workspace.table).toOption = some hs ∧ c.total = hs.length := by
  obtain ⟨hs, listed⟩ := Option.isSome_iff_exists.mp (Program.isSome_temporaries (covered_of_count counted))
  rw [Yields, run_query] at counted
  have answer := (Prod.mk.inj counted).1
  refine ⟨answer, hs, listed, Program.total_countTemporaries listed
    (Outcome.toOption_eq_some.mpr answer) fun h hh => ?_⟩
  exact booked.kind?_ne (((Program.temporaries_spec listed).2 h).mp hh)

/-- The accounts of the optimizer are exact, when the temporaries of the program are on the books.
It has lost one instruction for each that was folded away and for the final copy; it has lost one
temporary for each of these and for each that another one took over for; and these temporaries,
no others, are off the books. -/
theorem accounts_of_optimize {policy : Policy} {folder : Folder} {report : Report} (built : d.Built)
    (managed : d.workspace.Managed) (live : ∀ h, d.HasTemporary h → h ∈ d.workspace.temporaries.live)
    (ran : Yields (optimize policy folder) d report d') :
    (report.instructionsBefore = d.program.size ∧ report.instructionsAfter = d'.program.size ∧
      report.instructionsBefore = report.instructionsAfter + report.removedConstants +
        report.trailingCopyRemoved.toNat) ∧
    (d.program.countTemporaries d.workspace.table = .ok report.temporariesBefore ∧
      d'.program.countTemporaries d'.workspace.table = .ok report.temporariesAfter ∧
      report.temporariesBefore.total = report.temporariesAfter.total + report.removedConstants +
        report.removedTemporaries.total + report.trailingCopyRemoved.toNat) ∧
    ∀ h, h ∈ d'.workspace.temporaries.live ↔
      h ∈ d.workspace.temporaries.live ∧ ¬(d.HasTemporary h ∧ ¬d'.HasTemporary h) := by
  obtain ⟨before, removed, copied, integers, doubles, matrices, after, d₁, d₂, d₃, d₄, counted, folded,
    dropped, first, second, third, recounted⟩ := optimize_iff.mp ⟨report, ran⟩
  obtain ⟨rfl, -⟩ :=
    ran.eq_and_eq (optimize_of_passes counted folded dropped first second third recounted)
  have booked : d.Booked := ⟨managed, live⟩
  have formed := built.formed
  obtain ⟨size₁, spends₁⟩ := spends_of_foldConstants booked (covered_of_count counted) formed.typed folded
  obtain rfl : d.foldedBy policy folder = d₁ := by
    rw [Yields, run_foldConstants] at folded
    exact (Prod.mk.inj folded).2
  obtain ⟨size₂, spends₂⟩ := spends_of_dropTrailingCopy spends₁.booked spends₁.covered
    (fun i hi plain target => formed.copies_foldedBy policy folder hi plain) dropped
  obtain ⟨size₃, spends₃⟩ := spends_of_shareTemporaries (by simp) spends₂.booked spends₂.covered first
  obtain ⟨size₄, spends₄⟩ := spends_of_shareTemporaries (by simp) spends₃.booked spends₃.covered second
  obtain ⟨size₅, spends₅⟩ := spends_of_shareTemporaries (by simp) spends₄.booked spends₄.covered third
  obtain ⟨xs, count, retires⟩ :=
    ((((spends₁.trans spends₂).trans spends₃).trans spends₄).trans spends₅).retires
  obtain ⟨answer, hs, listed, total⟩ := total_of_count booked counted
  obtain ⟨answer', hs', listed', total'⟩ := total_of_count spends₅.booked recounted
  have fewer := retires.length_eq listed listed'
  refine ⟨⟨rfl, rfl, ?_⟩, ⟨answer, answer', ?_⟩, retires.mem_live_iff⟩
  · dsimp only
    omega
  · dsimp only [Counts.total] at total total' ⊢
    omega

/-- The equation `x = -(-(-n))` in the integers `n` and `x`, after a sum of constants. -/
def tripleNegation : Drafting Unit := do
  let _ ← apply (Request.binary .add ⟨0⟩ ⟨1⟩).perform
  let negated ← apply (Request.unary .negate ⟨2⟩).perform
  let again ← apply (Request.unary .negate negated).perform
  let third ← apply (Request.unary .negate again).perform
  assign third ⟨3⟩

/-- What is built from requests keeps the books. -/
theorem managed_of_apply {r : Request} {h : Handle} (managed : d.workspace.Managed)
    (ran : Yields (apply r.perform) d h d') : d'.workspace.Managed := by
  have extended := extended_apply r d
  rw [show (apply r.perform).run.run d = _ from ran] at extended
  exact extended.managed managed

theorem managed_of_assign {source target : Handle} (managed : d.workspace.Managed)
    (ran : Yields (assign source target) d () d') : d'.workspace.Managed := by
  have extended := extended_assign source target d
  rw [show (assign source target).run.run d = _ from ran] at extended
  exact extended.managed managed

theorem booked_tripleNegation :
    let d := Draft.ofEquation .tripleNegation (.ofIntegers ["n", "x"])
    d.Built ∧ d.workspace.Managed ∧ ∀ h, d.HasTemporary h → h ∈ d.workspace.temporaries.live := by
  intro d
  have ran : Yields tripleNegation ⟨.ofIntegers ["n", "x"], .empty⟩ () d :=
    yields_of_toOption (by decide +kernel)
  obtain ⟨_, _, first, ran⟩ := ran.of_bind
  obtain ⟨_, _, second, ran⟩ := ran.of_bind
  obtain ⟨_, _, third, ran⟩ := ran.of_bind
  obtain ⟨_, _, fourth, assigned⟩ := ran.of_bind
  refine ⟨.assign (.request (.request (.request (.request (.start _) _ _ first) _ _ second) _ _ third)
    _ _ fourth) _ _ assigned, ?_, fun h has => ?_⟩
  · have start : (Workspace.ofIntegers ["n", "x"]).Managed := .start _
    exact managed_of_assign (managed_of_apply (managed_of_apply (managed_of_apply
      (managed_of_apply start first) second) third) fourth) assigned
  · have listed : (d.program.temporaries d.workspace.table).toOption =
        some d.workspace.temporaries.live.reverse := by decide +kernel
    exact List.mem_reverse.mp (((Program.temporaries_spec listed).2 h).mpr has)

/-- The sum becomes a constant, the last negation is of `x` itself, and the second one takes over
the storage of the first. -/
theorem accounts_tripleNegation :
    let d := Draft.ofEquation .tripleNegation (.ofIntegers ["n", "x"])
    (d.Built ∧ d.workspace.Managed ∧ ∀ h, d.HasTemporary h → h ∈ d.workspace.temporaries.live) ∧
      ∃ report d', Yields (optimize .constants .refusing) d report d' ∧ report.removedConstants = 1 ∧
        report.trailingCopyRemoved = true ∧ report.removedTemporaries = ⟨1, 0, 0⟩ ∧
        report.instructionsBefore = report.instructionsAfter + 2 ∧
        report.temporariesBefore.total = report.temporariesAfter.total + 3 ∧
        ∀ h, h ∈ d'.workspace.temporaries.live ↔
          h ∈ d.workspace.temporaries.live ∧ ¬(d.HasTemporary h ∧ ¬d'.HasTemporary h) := by
  intro d
  obtain ⟨built, managed, live⟩ := booked_tripleNegation
  obtain ⟨report, ran⟩ : ∃ report, Yields (optimize .constants .refusing) d report _ :=
    exists_yields (by decide +kernel)
  have passes : ((optimize .constants .refusing).run.run d).1.toOption.map (fun report =>
      (report.removedConstants, report.trailingCopyRemoved, report.removedTemporaries)) =
        some (1, true, ⟨1, 0, 0⟩) := by decide +kernel
  rw [show (optimize .constants .refusing).run.run d = _ from ran] at passes
  simp only [Except.toOption, Option.map_some, Option.some.injEq, Prod.mk.injEq] at passes
  obtain ⟨⟨-, -, size⟩, ⟨-, -, total⟩, books⟩ := accounts_of_optimize built managed live ran
  obtain ⟨constants, copy, shared⟩ := passes
  rw [constants, copy] at size total
  rw [shared] at total
  exact ⟨⟨built, managed, live⟩, report, _, ran, constants, copy, shared, size, total, books⟩

end Drafting
end MatrixCode
