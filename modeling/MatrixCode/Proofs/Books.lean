import MatrixCode.Proofs.Fitting

/-!
The books on temporaries. Per kind, what was created has been released or is live; the live
handles are those of temporaries, and all temporaries go by different names, numbered below
what was created. Whatever is made, released, folded or renamed, the books stay in order.
-/

namespace MatrixCode

@[simp] theorem Variable.name_mapRange (f : Handle → Handle) (v : Variable) :
    (v.mapRange f).name = v.name := by
  unfold mapRange
  split <;> rfl

@[simp] theorem Variable.operand_mapRange (f : Handle → Handle) (v : Variable) :
    (v.mapRange f).operand = v.operand := by
  simp [operand]

namespace Counts

/-- The number of a kind; there are no temporary sequences. -/
def of (c : Counts) : Kind → Nat
  | .integer => c.integer
  | .double => c.double
  | .matrix => c.matrix
  | .sequence => 0

theorem of_bump (c : Counts) {kind : Kind} (hk : kind ≠ .sequence) (k : Kind) :
    (c.bump kind).of k = c.of k + if kind = k then 1 else 0 := by
  cases kind with
  | integer | double | matrix => cases k <;> rfl
  | sequence => exact absurd rfl hk

end Counts

namespace Workspace

/-- The name of a temporary, by its kind and its number. -/
def temporaryName (kind : Kind) (n : Nat) : String :=
  match kind with
  | .integer => "ti" ++ toString n
  | .double => "td" ++ toString n
  | .matrix | .sequence => "tm" ++ toString n

/-- Names of different temporaries differ. -/
theorem temporaryName_inj {kind k : Kind} {n m : Nat} (hk : kind ≠ .sequence) (hk' : k ≠ .sequence)
    (same : temporaryName kind n = temporaryName k m) : kind = k ∧ n = m := by
  have number {word : String} (h : word ++ toString n = word ++ toString m) : n = m :=
    Nat.repr_inj.mp ((String.append_right_inj word).mp h)
  have chars := congrArg String.toList same
  cases kind <;> cases k <;> first
    | exact absurd rfl hk
    | exact absurd rfl hk'
    | exact ⟨rfl, number same⟩
    | simp [temporaryName] at chars

/-- The next temporary is numbered by what was created of its kind. -/
theorem nextTemporary_numbered (created : Counts) (kind : Kind) :
    (nextTemporary created kind).kind ≠ .sequence ∧ (nextTemporary created kind).name =
      temporaryName (nextTemporary created kind).kind
        (created.of (nextTemporary created kind).kind) := by
  cases kind <;> exact ⟨by simp [nextTemporary, Variable.fresh, Variable.kind, Content.kind], rfl⟩

theorem table_release (w : Workspace) (h : Handle) : (w.release h).table = w.table := by
  unfold release
  split <;> rfl

theorem temporaries_create (w : Workspace) (kind : Kind) :
    (w.create kind).2.temporaries =
      { w.temporaries with
        created := w.temporaries.created.bump (nextTemporary w.temporaries.created kind).kind
        live := w.temporaries.live.insert ⟨w.table.size⟩ } := rfl

/-- The books are in order. -/
structure Balanced (w : Workspace) : Prop where
  nodup : w.temporaries.live.Nodup
  live : ∀ h ∈ w.temporaries.live, w.table.IsTemporary h
  counted : ∀ kind, w.temporaries.created.of kind = w.temporaries.released.of kind +
    w.temporaries.live.countP fun h => w.table.kind? h = some kind
  named : ∀ h v, w.table.get? h = some v → v.temporary = true →
    ∃ n < w.temporaries.created.of v.kind, v.name = temporaryName v.kind n
  distinct : ∀ h k u v, w.table.get? h = some u → w.table.get? k = some v → u.temporary = true →
    v.temporary = true → u.name = v.name → h = k

namespace Balanced

variable {w : Workspace}

/-- A temporary is no sequence, since none was created. -/
theorem kind_ne_sequence (b : w.Balanced) {h : Handle} {v : Variable} (hv : w.table.get? h = some v)
    (temporary : v.temporary = true) : v.kind ≠ .sequence := by
  obtain ⟨n, below, -⟩ := b.named h v hv temporary
  intro sequence
  rw [sequence] at below
  exact Nat.not_lt_zero n below

/-- Another table in which no temporary is new, and the live ones are temporaries still. -/
theorem withTable (b : w.Balanced) {t : Table}
    (old : ∀ h v, t.get? h = some v → v.temporary = true →
      ∃ u, w.table.get? h = some u ∧ u.temporary = true ∧ u.name = v.name ∧ u.kind = v.kind)
    (kept : ∀ h ∈ w.temporaries.live, t.IsTemporary h) : Balanced { w with table := t } where
  nodup := b.nodup
  live := kept
  counted kind := by
    rw [b.counted kind]
    refine congrArg _ (List.countP_congr fun h hh => ?_)
    obtain ⟨v, hv, temporary⟩ := kept h hh
    obtain ⟨u, hu, -, -, same⟩ := old h v hv temporary
    simp [Table.kind?, hu, hv, same]
  named h v hv temporary := by
    obtain ⟨u, hu, before, name, kind⟩ := old h v hv temporary
    rw [← name, ← kind]
    exact b.named h u hu before
  distinct h k u v hu hv temporary temporary' same := by
    obtain ⟨u', hu', before, name, -⟩ := old h u hu temporary
    obtain ⟨v', hv', before', name', -⟩ := old k v hv temporary'
    exact b.distinct h k u' v' hu' hv' before before' (by rw [name, name', same])

theorem release (b : w.Balanced) (h : Handle) : (w.release h).Balanced := by
  unfold Workspace.release
  split
  · next held =>
      have held : h ∈ w.temporaries.live := by simpa using held
      obtain ⟨v, hv, temporary⟩ := b.live h held
      have plain := b.kind_ne_sequence hv temporary
      refine ⟨b.nodup.erase h, fun k hk => b.live k (List.mem_of_mem_erase hk), fun kind => ?_, b.named,
        b.distinct⟩
      have erased : (w.temporaries.live.erase h).countP (fun k => w.table.kind? k = some kind) =
          w.temporaries.live.countP (fun k => w.table.kind? k = some kind) -
            if v.kind = kind then 1 else 0 := by
        rw [List.countP_erase]
        simp [held, Table.kind?, hv]
      have counted (same : v.kind = kind) :
          0 < w.temporaries.live.countP fun k => w.table.kind? k = some kind :=
        List.countP_pos_iff.mpr ⟨h, held, by simp [Table.kind?, hv, same]⟩
      simp only [hv, Counts.of_bump _ plain, b.counted kind, erased]
      split
      · next same =>
          have := counted same
          omega
      · rfl
  · exact b

theorem notMem_live (b : w.Balanced) : ⟨w.table.size⟩ ∉ w.temporaries.live := by
  intro held
  obtain ⟨v, hv, -⟩ := b.live _ held
  simp [w.get?_of_fresh] at hv

/-- The names so far are numbered below that of the next temporary. -/
theorem name_ne (b : w.Balanced) (kind : Kind) {h : Handle} {v : Variable}
    (hv : w.table.get? h = some v) (temporary : v.temporary = true) :
    v.name ≠ (nextTemporary w.temporaries.created kind).name := by
  obtain ⟨n, below, named⟩ := b.named h v hv temporary
  obtain ⟨plain, numbered⟩ := nextTemporary_numbered w.temporaries.created kind
  rw [named, numbered]
  intro same
  obtain ⟨kinds, rfl⟩ := temporaryName_inj (b.kind_ne_sequence hv temporary) plain same
  rw [kinds] at below
  exact Nat.lt_irrefl _ below

theorem create (b : w.Balanced) (kind : Kind) : (w.create kind).2.Balanced := by
  obtain ⟨plain, numbered⟩ := nextTemporary_numbered w.temporaries.created kind
  have temporary := (nextTemporary_spec w.temporaries.created kind).1
  have entry := w.get?_create kind
  have books := w.temporaries_create kind
  have bumped := Counts.of_bump w.temporaries.created plain
  constructor
  · rw [books]
    exact b.nodup.insert
  · intro h hh
    rw [Table.IsTemporary, entry]
    split
    · exact ⟨_, rfl, temporary⟩
    · next other =>
        rw [books, List.mem_insert_iff] at hh
        exact b.live h (hh.resolve_left other)
  · intro k
    have old : w.temporaries.live.countP (fun h => (w.create kind).2.table.kind? h = some k) =
        w.temporaries.live.countP fun h => w.table.kind? h = some k := by
      refine List.countP_congr fun h hh => ?_
      rw [Table.kind?, entry, if_neg, Table.kind?]
      rintro rfl
      exact b.notMem_live hh
    have here : (w.create kind).2.table.kind? ⟨w.table.size⟩ =
        some (nextTemporary w.temporaries.created kind).kind := by
      rw [Table.kind?, entry, if_pos rfl, Option.map_some]
    simp only [books, List.insert_of_not_mem b.notMem_live, List.countP_cons, old, here, bumped,
      b.counted k, Option.some.injEq, decide_eq_true_eq]
    omega
  · intro h v hv ht
    rw [books]
    rw [entry] at hv
    split at hv
    · cases hv
      refine ⟨_, ?_, numbered⟩
      rw [bumped, if_pos rfl]
      exact Nat.lt_succ_self _
    · obtain ⟨n, below, named⟩ := b.named h v hv ht
      refine ⟨n, Nat.lt_of_lt_of_le below ?_, named⟩
      rw [bumped]
      exact Nat.le_add_right _ _
  · intro h h' u v hu hv ht ht' same
    rw [entry] at hu hv
    split at hu <;> split at hv
    · next here there => rw [here, there]
    · cases hu
      exact absurd same.symm (b.name_ne kind hv ht')
    · cases hv
      exact absurd same (b.name_ne kind hu ht)
    · exact b.distinct h h' u v hu hv ht ht' same

/-- A variable that becomes an expression is taken off the books first. -/
theorem fold (b : w.Balanced) (h : Handle) (e : ScalarText) : (w.fold h e).Balanced := by
  have released := b.release h
  have table : (w.release h).table = w.table := by
    unfold Workspace.release
    split <;> rfl
  have gone : h ∉ (w.release h).temporaries.live := by
    unfold Workspace.release
    split
    · exact b.nodup.not_mem_erase
    · next free => simpa using free
  refine released.withTable (fun k v hv ht => ?_) fun k hk => ?_
  · rw [Table.get?_modify] at hv
    split at hv
    · obtain ⟨u, -, rfl⟩ := Option.map_eq_some_iff.mp hv
      cases ht
    · exact ⟨v, hv, ht, rfl, rfl⟩
  · have other : k ≠ h := by
      rintro rfl
      exact gone hk
    rw [Table.IsTemporary, Table.get?_modify, if_neg other]
    exact released.live k hk

/-- Renaming inside ranges touches no temporary. -/
theorem renameWithin (b : w.Balanced) (source target : Handle) (hs : List Handle) :
    Balanced { w with table := w.table.renameWithin source target hs } := by
  have entry := w.table.get?_renameWithin source target hs
  refine b.withTable (fun h v hv ht => ?_) fun h hh => ?_
  · rw [entry] at hv
    obtain ⟨u, hu, rfl⟩ := Option.map_eq_some_iff.mp hv
    refine ⟨u, hu, ?_⟩
    by_cases inside : h ∈ hs ∧ h ≠ source
    · simpa [inside, Variable.kind_mapRange] using ht
    · simpa [inside] using ht
  · obtain ⟨u, hu, ht⟩ := b.live h hh
    rw [Table.IsTemporary, entry, hu]
    refine ⟨_, rfl, ?_⟩
    split
    · simpa using ht
    · exact ht

end Balanced

/-- What a construction leaves of a workspace: the workspace itself, one more temporary, or the
workspace taken back to where it was. -/
inductive Made : Workspace → Workspace → Prop where
  | same (w : Workspace) : Made w w
  | created (w : Workspace) (kind : Kind) : Made w (w.create kind).2
  | undone (w : Workspace) : Made w (w.rollback w.checkpoint)

theorem get?_rollback (w : Workspace) (h : Handle) :
    (w.rollback w.checkpoint).table.get? h = w.table.get? h := by
  simp [rollback, checkpoint, Table.truncate, Table.get?, Table.size]

/-- A rollback to where the workspace is changes nothing on the books. -/
theorem temporaries_rollback {w : Workspace} (live : ∀ h ∈ w.temporaries.live, (w.table.get? h).isSome) :
    (w.rollback w.checkpoint).temporaries = w.temporaries := by
  have inside : w.temporaries.live.filter (fun h => h.index < w.checkpoint.tableSize) =
      w.temporaries.live := by
    refine List.filter_eq_self.mpr fun h hh => ?_
    obtain ⟨v, hv⟩ := Option.isSome_iff_exists.mp (live h hh)
    obtain ⟨bound, -⟩ := Array.getElem?_eq_some_iff.mp hv
    exact decide_eq_true bound
  rw [rollback, inside]
  rfl

theorem Balanced.isSome_live {w : Workspace} (b : w.Balanced) :
    ∀ h ∈ w.temporaries.live, (w.table.get? h).isSome := by
  intro h hh
  obtain ⟨v, hv, -⟩ := b.live h hh
  simp [hv]

theorem Made.extends {w w' : Workspace} (made : Made w w') : w.table.Extends w'.table := by
  cases made with
  | same => exact fun _ _ => id
  | created kind => exact w.extends_create kind
  | undone => exact fun h v hv => (w.get?_rollback h).trans hv

theorem Made.balanced {w w' : Workspace} (made : Made w w') (b : w.Balanced) : w'.Balanced := by
  cases made with
  | same => exact b
  | created kind => exact b.create kind
  | undone =>
      have kept : Balanced { w with table := (w.rollback w.checkpoint).table } :=
        b.withTable (fun h v hv ht => ⟨v, (w.get?_rollback h).symm.trans hv, ht, rfl, rfl⟩)
          fun h hh => by
            obtain ⟨v, hv, ht⟩ := b.live h hh
            exact ⟨v, (w.get?_rollback h).trans hv, ht⟩
      rwa [← temporaries_rollback b.isSome_live] at kept

end Workspace

theorem Draft.Step.balanced {folder : Folder} {d d' : Draft} (step : Step folder d d')
    (b : d.workspace.Balanced) : d'.workspace.Balanced := by
  cases step with
  | fold h e _ => exact b.fold h e
  | restrict p kept => exact b
  | replace hs ht => exact (b.renameWithin _ _ _).release _

namespace Construction

/-- A construction that fails has made nothing. -/
def Clean {α : Type} (c : Construction α) : Prop := ∀ w w', Fails c w w' → w' = w

variable {α β : Type}

theorem Observes.clean {c : Construction α} (hc : Observes c) : Clean c := by
  rintro w w' ⟨e, failed⟩
  rw [← hc w, failed]

theorem Observes.clean_bind {c : Construction α} {f : α → Construction β} (hc : Observes c)
    (hf : ∀ a, Clean (f a)) : Clean (c >>= f) := by
  intro w w' failed
  obtain first | ⟨a, w₁, ran, rest⟩ := failed.of_bind
  · exact hc.clean w w' first
  · obtain rfl : w₁ = w := by rw [← hc w, ran]
    exact hf a w₁ w' rest

theorem clean_allocate_bind (form : Form) (inputs : List Handle) (f : Instruction → α) :
    Clean (do return f (← allocate form inputs)) := by
  rintro w w' ⟨e, failed⟩
  cases failed

theorem clean_allocate (form : Form) (inputs : List Handle) : Clean (allocate form inputs) := by
  rintro w w' ⟨e, failed⟩
  cases failed

theorem fails_guarded {c : Construction α} (clean : Clean c) {w w' : Workspace}
    (failed : Fails (guarded c) w w') : w' = w.rollback w.checkpoint := by
  obtain ⟨e, failed⟩ := failed
  rw [guarded, ExceptT.run_mk, StateT.run] at failed
  cases hx : c.run.run w with
  | mk result w₁ =>
      rw [hx] at failed
      cases result with
      | ok a => cases failed
      | error e' =>
          obtain rfl := clean w w₁ ⟨e', hx⟩
          cases failed
          rfl

theorem observes_checkItem (h : Handle) : Observes (checkItem h) :=
  (observes_query _).bind fun _ => .ite (observes_unsupported _ _) (observes_pure ())

theorem observes_checkRange (range : List Handle) : Observes (checkRange range) :=
  (observes_query _).bind fun _ => observes_pure ()

end Construction

open Construction in
/-- A request that fails leaves the workspace as it was, or rolls it back. -/
theorem Request.fails_perform {r : Request} {w w' : Workspace} (failed : Fails r.perform w w') :
    w' = w ∨ w' = w.rollback w.checkpoint := by
  cases r with
  | unary p a =>
      refine .inr (fails_guarded ((observes_query _).clean_bind fun kind => ?_) failed)
      split
      · exact clean_allocate _ _
      · exact (observes_mismatch _ _).clean
  | binary p a b =>
      obtain first | ⟨q, w₁, ran, rest⟩ := failed.of_bind
      · exact .inl ((observes_screened p a b).clean w w' first)
      · obtain rfl : w₁ = w := by rw [← observes_screened p a b w, ran]
        refine .inr (fails_guarded ((observes_query _).clean_bind fun left =>
          (observes_query _).clean_bind fun right => ?_) rest)
        split
        · exact clean_allocate _ _
        · exact (observes_mismatch _ _).clean
  | assemble rows =>
      exact .inr (fails_guarded ((observes_forM observes_checkItem _).clean_bind fun _ =>
        clean_allocate_bind _ _ _) failed)
  | complex re im =>
      exact .inl (((observes_query _).bind fun _ => observes_report _).clean w w' failed)
  | extract a range =>
      refine .inr (fails_guarded ((observes_query _).clean_bind fun kind => ?_) failed)
      split
      · exact (observes_mismatch _ _).clean_bind fun _ => (observes_checkRange _).clean_bind fun _ =>
          clean_allocate_bind _ _ _
      · exact (observes_checkRange _).clean_bind fun _ => clean_allocate_bind _ _ _
  | element a indices =>
      have indexed (f : Unit → Construction Instruction) (hf : ∀ u, Clean (f u)) :
          Clean ((indices.forM fun i => do
            if (← kindOf i) ≠ .integer then mismatch .element (a :: indices)) >>= f) :=
        (observes_forM (fun h => (observes_query _).bind fun _ =>
          .ite (observes_mismatch _ _) (observes_pure ())) _).clean_bind hf
      refine .inr (fails_guarded ((observes_query _).clean_bind fun kind => ?_) failed)
      split
      · exact (observes_mismatch _ _).clean_bind fun _ => indexed _ fun _ => clean_allocate _ _
      · exact indexed _ fun _ => clean_allocate _ _
  | copy source target =>
      refine .inl (Observes.clean ((observes_query _).bind fun left =>
        (observes_query _).bind fun right => ?_) w w' failed)
      split
      · exact observes_pure _
      · exact observes_mismatch _ _
  | copyRange source target range =>
      refine .inl (Observes.clean ((observes_query _).bind fun left =>
        (observes_query _).bind fun right => ?_) w w' failed)
      split
      · exact (observes_checkRange _).bind fun _ => observes_pure _
      · exact observes_mismatch _ _

theorem Request.made_perform (r : Request) (w : Workspace) : w.Made (r.perform.run.run w).2 := by
  obtain ⟨i, w', ran⟩ | ⟨w', failed⟩ := yields_or_fails r.perform w
  · rw [ran]
    obtain ⟨kind, rfl, -⟩ | ⟨rfl, -⟩ := Request.of_perform ran
    · exact .created w kind
    · exact .same w'
  · have after : (r.perform.run.run w).2 = w' := by
      obtain ⟨e, failed⟩ := failed
      rw [failed]
    rw [after]
    obtain rfl | rfl := Request.fails_perform failed
    · exact .same w'
    · exact .undone w

end MatrixCode
