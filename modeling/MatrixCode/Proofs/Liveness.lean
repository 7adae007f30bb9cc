import MatrixCode.Proofs.Runs

/-!
Liveness, and runs under a renaming of handles. A handle is live where its value may
still be read, or asked for at the end. A run does not notice a renaming that
never brings the target of an instruction together with another handle that is
live after the instruction, whatever the renaming does to handles that are not live.
-/

namespace MatrixCode

namespace Table

theorem isOne?_eq_appearance? (t : Table) (h : Handle) :
    t.isOne? h = (t.appearance? h).map fun a => decide (a.integer? = some 1) := by
  simp only [isOne?, appearance?, Option.map_map]
  rfl

theorem kind?_eq_content? (t : Table) (h : Handle) : t.kind? h = (t.content? h).map Content.kind := by
  simp only [kind?, content?, Option.map_map]
  rfl

theorem range?_map {f : Handle → Handle} {t t' : Table} {h h' : Handle}
    (same : t'.content? h' = (t.content? h).map (.map f)) :
    t'.range? h' = (t.range? h).map (.map f) := by
  simp only [content?] at same
  simp only [range?]
  cases hv : t.get? h with
  | none => simp_all
  | some v =>
      rw [hv, Option.map_some, Option.map_some, Option.map_eq_some_iff] at same
      obtain ⟨v', hv', same⟩ := same
      simp only [hv', Option.bind_some, Variable.range?, same]
      cases v.content <;> rfl

theorem range?_congr {t t' : Table} {h : Handle} (same : t'.content? h = t.content? h) :
    t'.range? h = t.range? h := by
  ext r
  rw [range?_eq_some, range?_eq_some, same]

end Table

namespace Instruction

/-- Every handle whose value the instruction needs: what it reads, and a target that
it writes a part of. -/
def uses (t : Table) (i : Instruction) : List Handle :=
  i.sources t ++ if i.isPartial then i.output.toList else []

/-- Every handle that the instruction reads, then the one that it writes. -/
def mentions (t : Table) (i : Instruction) : List Handle := i.sources t ++ i.output.toList

/-- Everything that the instruction mentions is in the table. -/
structure Covered (t : Table) (i : Instruction) : Prop where
  range : ∀ h ∈ i.range.getD [], (t.get? h).isSome
  mentioned : ∀ h ∈ i.mentions t, (t.get? h).isSome

theorem mem_mentions_of_mem_sources {t : Table} {i : Instruction} {h : Handle}
    (hh : h ∈ i.sources t) : h ∈ i.mentions t :=
  List.mem_append_left _ hh

theorem mem_mentions_of_output {t : Table} {i : Instruction} {h : Handle} (hh : i.output = some h) :
    h ∈ i.mentions t := by
  simp [mentions, hh]

theorem sources_congr {t t' : Table} (same : ∀ h, t'.content? h = t.content? h) (i : Instruction) :
    i.sources t' = i.sources t := by
  have through : t'.through = t.through := by
    funext h
    rw [Table.through, Table.through, Table.range?_congr (same h)]
  rw [sources, sources, through]

theorem uses_congr {t t' : Table} (same : ∀ h, t'.content? h = t.content? h) (i : Instruction) :
    i.uses t' = i.uses t := by
  rw [uses, uses, sources_congr same]

theorem Covered.congr {t t' : Table} {i : Instruction} (c : i.Covered t)
    (same : ∀ h, t'.content? h = t.content? h) : i.Covered t' := by
  have found (h : Handle) (hh : (t.get? h).isSome) : (t'.get? h).isSome := by
    have := same h
    simp only [Table.content?] at this
    rwa [← Option.isSome_map, this, Option.isSome_map]
  exact ⟨fun h hh => found h (c.range h hh),
    fun h hh => found h (c.mentioned h (by rwa [mentions, ← sources_congr same]))⟩

theorem Covered.input {t : Table} {i : Instruction} (c : i.Covered t) {k : Handle}
    (hk : k ∈ i.inputs) : (t.get? k).isSome :=
  c.mentioned k (by simp [mentions, sources, hk])

theorem toOption_readThrough (t : Table) (h : Handle) :
    (readThrough t h).toOption = (t.get? h).map fun _ => t.through h := by
  simp only [readThrough, Outcome.toOption_bind, Table.toOption_fetch, Table.through, Table.range?]
  cases t.get? h with
  | none => rfl
  | some v =>
      simp only [Option.bind_some, Option.map_some]
      cases v.range? <;> rfl

theorem toOption_mapM_readThrough (t : Table) (range : List Handle) :
    (range.mapM (readThrough t)).toOption =
      if ∀ h ∈ range, (t.get? h).isSome then some (range.map t.through) else none := by
  rw [Outcome.toOption_mapM]
  simp only [toOption_readThrough]
  induction range with
  | nil => simp
  | cons h range ih =>
      simp only [List.mapM_cons, List.forall_mem_cons, ih]
      cases t.get? h with
      | none => simp
      | some v =>
          simp only [Option.map_some, Option.isSome_some, true_and]
          split <;> rfl

/-- The reads of an instruction can be listed when its ranges are in the table. -/
theorem toOption_reads (t : Table) (i : Instruction) :
    (i.reads t).toOption =
      if ∀ h ∈ i.range.getD [], (t.get? h).isSome then some (i.sources t) else none := by
  simp only [reads, Outcome.toOption_bind, toOption_mapM_readThrough]
  split <;> simp [sources, List.flatMap_def]

theorem toOption_references (t : Table) (i : Instruction) :
    (i.references t).toOption =
      if ∀ h ∈ i.range.getD [], (t.get? h).isSome then some (i.mentions t) else none := by
  simp only [references, Outcome.toOption_bind, toOption_reads]
  split <;> rfl

theorem mem_sources_of_mem_inputs {t : Table} {i : Instruction} {k : Handle} (hk : k ∈ i.inputs) :
    k ∈ i.sources t := by
  simp [sources, hk]

theorem mem_uses_of_mem_sources {t : Table} {i : Instruction} {k : Handle}
    (hk : k ∈ i.sources t) : k ∈ i.uses t :=
  List.mem_append_left _ hk

theorem mem_mentions_of_mem_uses {t : Table} {i : Instruction} {h : Handle} (hh : h ∈ i.uses t) :
    h ∈ i.mentions t := by
  simp only [uses, mentions, List.mem_append] at hh ⊢
  refine hh.imp_right fun hp => ?_
  split at hp
  · exact hp
  · cases hp

theorem mem_uses_of_isPartial {t : Table} {i : Instruction} {w : Handle} (hw : i.output = some w)
    (hp : i.isPartial) : w ∈ i.uses t := by
  simp [uses, hp, hw]

theorem mem_sources_of_mem_steps {t : Table} {i : Instruction} {k : Handle}
    (hk : k ∈ i.steps t) : k ∈ i.sources t := by
  obtain ⟨r, hr, hk⟩ := List.mem_flatMap.mp hk
  have through : k ∈ t.through r := by
    simp only [Option.mem_toList, Option.bind_eq_some_iff] at hk
    obtain ⟨range, hrange, hk⟩ := hk
    simp only [Table.through, hrange, Option.map_some, Option.getD_some]
    cases range <;> simp_all [IndexRange.step?, IndexRange.referenced]
  have mem := List.mem_flatMap.mpr ⟨r, hr, through⟩
  simp only [sources, List.mem_append]
  exact .inl (.inr mem)

end Instruction

/-- The handles whose values matter before the instructions, when those in `out`
matter after them. -/
def Live (t : Table) (out : Handle → Prop) : List Instruction → Handle → Prop
  | [], h => out h
  | i :: is, h => h ∈ i.uses t ∨ i.output ≠ some h ∧ Live t out is h

namespace Live

variable {t : Table} {out : Handle → Prop} {h : Handle}

theorem append (is js : List Instruction) :
    Live t out (is ++ js) h ↔ Live t (Live t out js) is h := by
  induction is with
  | nil => rfl
  | cons i is ih => simp only [List.cons_append, Live, ih]

theorem mono {out' : Handle → Prop} {is : List Instruction} (ho : out h → out' h)
    (hl : Live t out is h) : Live t out' is h := by
  induction is with
  | nil => exact ho hl
  | cons i is ih => exact hl.imp_right fun ⟨other, live⟩ => ⟨other, ih live⟩

theorem congr {t' : Table} (same : ∀ h, t'.content? h = t.content? h) {is : List Instruction}
    (hl : Live t' out is h) : Live t out is h := by
  induction is with
  | nil => exact hl
  | cons i is ih =>
      exact hl.imp (fun hu => Instruction.uses_congr same i ▸ hu) fun ⟨other, live⟩ => ⟨other, ih live⟩

/-- What is live and has not been written was live before. -/
theorem of_notMem_outputs {done rest : List Instruction} (hn : h ∉ Instruction.outputs done)
    (hl : Live t out rest h) : Live t out (done ++ rest) h := by
  induction done with
  | nil => exact hl
  | cons i done ih =>
      simp only [Instruction.outputs_cons, List.mem_append, not_or, Option.mem_toList] at hn
      exact .inr ⟨hn.1, ih hn.2⟩

/-- What is used only after it was written does not have to be there before. -/
theorem not_of_used {is : List Instruction} (ho : ¬out h)
    (hu : ∀ done i rest, is = done ++ i :: rest → h ∈ i.uses t → h ∈ Instruction.outputs done) :
    ¬Live t out is h := by
  induction is with
  | nil => exact ho
  | cons i is ih =>
      rintro (used | ⟨other, live⟩)
      · simpa using hu [] i is rfl used
      · refine ih (fun done j rest split used => ?_) live
        simpa [other] using hu (i :: done) j rest (congrArg (i :: ·) split) used

/-- A live handle is used, or it is asked for and not written before. -/
theorem used_or_out {is : List Instruction} (hl : Live t out is h) :
    (∃ i ∈ is, h ∈ i.uses t) ∨ out h ∧ h ∉ Instruction.outputs is := by
  induction is with
  | nil => exact .inr ⟨hl, by simp⟩
  | cons i is ih =>
      rcases hl with hu | ⟨other, live⟩
      · exact .inl ⟨i, List.mem_cons_self, hu⟩
      · refine (ih live).imp (fun ⟨j, hj, hu⟩ => ⟨j, List.mem_cons_of_mem i hj, hu⟩) ?_
        rintro ⟨ho, hn⟩
        exact ⟨ho, by simpa using ⟨fun hi => other hi, hn⟩⟩

end Live

/-- How a handle of one machine is found in another: it looks the same and has the same
value, or it has become a literal with the value that it has. -/
inductive Linked (t t' : Table) (s s' : Store) (h h' : Handle) : Prop where
  | bound (appearance : t'.appearance? h' = t.appearance? h) (value : s'.get? h' = s.get? h)
  | folded (a : Appearance) (x : Value) (appearance : t.appearance? h = some a)
      (plain : a.isLiteral = false) (value : s.get? h = some x) (scalar : x.matrix? = none)
      (literal : t'.appearance? h' =
        some { a with isLiteral := true, integer? := x.integer?, double? := x.double? })
      (clean : s'.matrix? h' = none)

namespace Linked

variable {t t' : Table} {s s' : Store} {h h' w w' : Handle}

theorem sameReading (l : Linked t t' s s' h h') : SameReading t t' s s' h h' := by
  cases l with
  | bound appearance value => exact .of_bound appearance value
  | folded a x appearance plain value scalar literal clean =>
      constructor
      · rw [Table.kind?_eq_appearance?, Table.kind?_eq_appearance?, appearance, literal]
        rfl
      · rw [Store.toOption_integer, Store.toOption_integer, appearance, literal]
        simp [plain, value]
      · rw [Store.toOption_double, Store.toOption_double, appearance, literal]
        simp [plain, value]
      · rw [Store.toOption_matrix, Store.toOption_matrix, clean, Store.matrix?, value]
        exact scalar.symm

/-- A write elsewhere, in both machines, keeps a link. -/
theorem set (l : Linked t t' s s' h h') (x : Value) (hw : h ≠ w) (hw' : h' ≠ w') :
    Linked t t' (s.set w x) (s'.set w' x) h h' := by
  cases l with
  | bound appearance value => exact .bound appearance (by simp [hw, hw', value])
  | folded a y appearance plain value scalar literal clean =>
      refine .folded a y appearance plain (by simp [hw, value]) scalar literal ?_
      simpa [Store.matrix?, hw'] using clean

theorem erase (l : Linked t t' s s' h h') (hw : h ≠ w) (hw' : h' ≠ w') :
    Linked t t' (s.erase w) (s'.erase w') h h' := by
  cases l with
  | bound appearance value => exact .bound appearance (by simp [hw, hw', value])
  | folded a y appearance plain value scalar literal clean =>
      refine .folded a y appearance plain (by simp [hw, value]) scalar literal ?_
      simpa [Store.matrix?, hw'] using clean

end Linked

namespace Instruction

variable {f : Handle → Handle} {t t' : Table} {s s' : Store} {i : Instruction}

/-- What an instruction depends on is carried over where everything that it reads is
found again. -/
theorem carries_of_linked (sources : ∀ k ∈ i.sources t, Linked t t' s s' k (f k))
    (content : ∀ k ∈ i.range.getD [], t'.content? (f k) = (t.content? k).map (.map f))
    (steps : ∀ k ∈ i.steps t, t'.appearance? (f k) = t.appearance? k)
    (target : ∀ w, i.output = some w → t'.appearance? (f w) = t.appearance? w)
    (whole : ∀ w, i.output = some w → i.isPartial → s'.get? (f w) = s.get? w)
    (apart : ∀ w, i.output = some w → t.kind? w = some .matrix ∨ i.isPartial →
      ∀ k ∈ i.sources t, f k = f w → k = w) :
    Carries f t t' s s' i := by
  have steps (k : Handle) (hk : k ∈ i.steps t) : t'.isOne? (f k) = t.isOne? k := by
    rw [Table.isOne?_eq_appearance?, Table.isOne?_eq_appearance?, steps k hk]
  refine ⟨⟨fun k hk => (sources k hk).sameReading, content, steps⟩, ?_, apart, ?_, ?_⟩
  · intro w hw
    rw [Table.kind?_eq_appearance?, Table.kind?_eq_appearance?, target w hw]
  · intro w hw hp
    rw [Store.matrix?, Store.matrix?, whole w hw hp]
  · intro w hw hp
    refine ⟨fun k hk => ?_, content, steps⟩
    by_cases hkw : k = w
    · subst hkw
      exact .of_bound (target k hw) (by simp)
    · exact ((sources k hk).erase hkw fun hf => hkw (apart w hw (.inr hp) k hk hf)).sameReading

end Instruction

/-- The new table shows the renamed handles of the instructions as the old one shows
the handles themselves. -/
structure Renames (f : Handle → Handle) (t t' : Table) (is : List Instruction) : Prop where
  source : ∀ i ∈ is, ∀ k ∈ i.sources t, t'.appearance? (f k) = t.appearance? k
  target : ∀ i ∈ is, ∀ w, i.output = some w → t'.appearance? (f w) = t.appearance? w
  content : ∀ i ∈ is, ∀ k ∈ i.range.getD [], t'.content? (f k) = (t.content? k).map (.map f)

theorem Renames.tail {f : Handle → Handle} {t t' : Table} {i : Instruction} {is : List Instruction}
    (r : Renames f t t' (i :: is)) : Renames f t t' is where
  source j hj := r.source j (List.mem_cons_of_mem i hj)
  target j hj := r.target j (List.mem_cons_of_mem i hj)
  content j hj := r.content j (List.mem_cons_of_mem i hj)

/-- No instruction writes to what another live handle is renamed to. A matrix is written
while the operands are read, so for it that holds of the operands too. -/
def Clear (f : Handle → Handle) (t : Table) (out : Handle → Prop) (is : List Instruction) : Prop :=
  ∀ done i rest, is = done ++ i :: rest → ∀ w, i.output = some w →
    (∀ h, Live t out rest h → f h = f w → h = w) ∧
    (t.kind? w = some .matrix ∨ i.isPartial → ∀ k ∈ i.sources t, f k = f w → k = w)

namespace Instruction

variable {f : Handle → Handle} {t t' : Table} {i : Instruction}

theorem sources_rename
    (content : ∀ k ∈ i.range.getD [], t'.content? (f k) = (t.content? k).map (.map f)) :
    (i.rename f).sources t' = (i.sources t).map f := by
  have through (k : Handle) (hk : k ∈ i.range.getD []) : t'.through (f k) = (t.through k).map f := by
    simp only [Table.through, Table.range?_map (content k hk)]
    cases t.range? k with
    | none => rfl
    | some range => simp [IndexRange.referenced_map]
  simp only [sources, rename_inputs, rename_range, List.map_append]
  congr 1
  · congr 1
    cases hr : i.range with
    | none => rfl
    | some range =>
        rw [hr] at through
        simp only [Option.map_some, Option.getD_some, List.flatMap_map, List.map_flatMap]
        rw [List.flatMap_def, List.flatMap_def]
        exact congrArg List.flatten (List.map_congr_left through)
  · cases hb : i.blocks <;> simp [items, hb, List.map_flatten]

theorem uses_rename
    (content : ∀ k ∈ i.range.getD [], t'.content? (f k) = (t.content? k).map (.map f)) :
    (i.rename f).uses t' = (i.uses t).map f := by
  simp only [uses, sources_rename content, rename_isPartial, List.map_append, rename_output]
  congr 1
  split
  · rw [Option.toList_map]
  · rfl

theorem outputs_map_rename (f : Handle → Handle) (is : List Instruction) :
    outputs (is.map (.rename f)) = (outputs is).map f := by
  simp only [outputs, List.filterMap_map, List.map_filterMap]
  rfl

theorem Typed.rename (typed : i.Typed t) (kinds : ∀ h, t'.kind? (f h) = t.kind? h) :
    (i.rename f).Typed t' := by
  constructor
  · intro w hw h
    obtain ⟨k, hk, rfl⟩ := Option.map_eq_some_iff.mp hw
    rw [kinds]
    exact typed.matrix k hk (by rwa [rename_isPartial] at h)
  · intro w hw h
    obtain ⟨k, hk, rfl⟩ := Option.map_eq_some_iff.mp hw
    rw [kinds]
    exact typed.integer k hk h

end Instruction

/-- What is live under the new names was live under the old ones. -/
theorem Live.of_rename {f : Handle → Handle} {t t' : Table} {out out' : Handle → Prop}
    {is : List Instruction}
    (content : ∀ i ∈ is, ∀ k ∈ i.range.getD [], t'.content? (f k) = (t.content? k).map (.map f))
    (ho : ∀ w, out' w → ∃ h, f h = w ∧ out h)
    {w : Handle} (live : Live t' out' (is.map (.rename f)) w) : ∃ h, f h = w ∧ Live t out is h := by
  induction is with
  | nil => exact ho w live
  | cons i is ih =>
      rcases live with used | ⟨other, live⟩
      · rw [Instruction.uses_rename (content i List.mem_cons_self)] at used
        obtain ⟨h, hu, rfl⟩ := List.mem_map.mp used
        exact ⟨h, rfl, .inl hu⟩
      · obtain ⟨h, rfl, hl⟩ := ih (fun j hj => content j (.tail i hj)) live
        refine ⟨h, rfl, .inr ⟨fun same => other ?_, hl⟩⟩
        rw [Instruction.rename_output, same, Option.map_some]

section Simulation

variable {f : Handle → Handle} {t t' : Table} {out : Handle → Prop}

theorem Clear.tail {i : Instruction} {is : List Instruction} (c : Clear f t out (i :: is)) :
    Clear f t out is :=
  fun done j rest split => c (i :: done) j rest (congrArg (i :: ·) split)

/-- A machine holds, under the new names, what another holds in the handles in `p`. -/
structure Tracks (f : Handle → Handle) (p : Handle → Prop) (m m' : Machine) : Prop where
  value : ∀ h, p h → m'.store.get? (f h) = m.store.get? h
  generator : m'.generator = m.generator

/-- An instruction whose dependencies are carried over does the same under its new names, or fails
under both. -/
theorem Tracks.of_carries {i : Instruction} {is : List Instruction} {m m' : Machine}
    (carries : Instruction.Carries f t t' m.store m'.store i) (clear : Clear f t out (i :: is))
    (tracks : Tracks f (Live t out (i :: is)) m m') :
    ((i.rename f).evaluate t' m').toOption = (i.evaluate t m).toOption.map (.retarget f) ∧
      ∀ e, (i.evaluate t m).toOption = some e →
        Tracks f (Live t out is) (m.apply e) (m'.apply (e.retarget f)) := by
  refine ⟨?_, fun e he => ⟨fun h live => ?_, rfl⟩⟩
  · obtain ⟨s', g'⟩ := m'
    obtain rfl : g' = m.generator := tracks.generator
    exact Instruction.toOption_evaluate_rename m.generator carries
  · have hw := Instruction.output_of_evaluate he
    have same : f h = f e.target ↔ h = e.target :=
      ⟨(clear [] i is rfl e.target hw).1 h live, fun hh => hh ▸ rfl⟩
    simp only [Machine.get?_apply, Effect.retarget, same]
    split
    · rfl
    · next other => exact tracks.value h (.inr ⟨fun ho => other (by simp_all), live⟩)

/-- One instruction and its renaming do the same, or both fail. -/
theorem Tracks.step {i : Instruction} {is : List Instruction} {m m' : Machine}
    (ren : Renames f t t' (i :: is)) (clear : Clear f t out (i :: is))
    (tracks : Tracks f (Live t out (i :: is)) m m') :
    ((i.rename f).evaluate t' m').toOption = (i.evaluate t m).toOption.map (.retarget f) ∧
      ∀ e, (i.evaluate t m).toOption = some e →
        Tracks f (Live t out is) (m.apply e) (m'.apply (e.retarget f)) := by
  have head := List.mem_cons_self (a := i) (l := is)
  have source (k : Handle) (hk : k ∈ i.sources t) : Linked t t' m.store m'.store k (f k) :=
    .bound (ren.source i head k hk)
      (tracks.value k (.inl (Instruction.mem_uses_of_mem_sources hk)))
  refine tracks.of_carries (Instruction.carries_of_linked source (ren.content i head)
    (fun k hk => ren.source i head k (Instruction.mem_sources_of_mem_steps hk)) (ren.target i head)
    (fun w hw hp => tracks.value w (.inl (Instruction.mem_uses_of_isPartial hw hp))) ?_) clear
  exact fun w hw => (clear [] i is rfl w hw).2

/-- A run of renamed instructions gets as far as the run of the instructions themselves,
and ends with the same values. -/
theorem Tracks.advance {is : List Instruction} {m m' : Machine} (ren : Renames f t t' is)
    (clear : Clear f t out is) (tracks : Tracks f (Live t out is) m m') :
    (Machine.advance t' (is.map (.rename f)) m').2 = (Machine.advance t is m).2.map (.rename f) ∧
      Tracks f (Live t out (Machine.advance t is m).2) (Machine.advance t is m).1
        (Machine.advance t' (is.map (.rename f)) m').1 := by
  induction is generalizing m m' with
  | nil => exact ⟨rfl, tracks⟩
  | cons i is ih =>
      obtain ⟨same, next⟩ := tracks.step ren clear
      simp only [List.map_cons, Machine.advance, same]
      cases he : (i.evaluate t m).toOption with
      | none => exact ⟨rfl, tracks⟩
      | some e => exact ih ren.tail clear.tail (next e he)

end Simulation
end MatrixCode
