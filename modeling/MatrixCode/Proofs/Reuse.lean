import MatrixCode.Proofs.Building
import MatrixCode.Proofs.Sharing

/-!
Sharing in programs that write their temporaries any number of times. All that is asked is
that a temporary is written, as a whole, before it is mentioned in any other way. Scalars that
share storage must not be literals, which are read by their names; matrices are read by
their values alone, whatever they are called.
-/

namespace MatrixCode

namespace Store

variable {s : Store} {t : Table} {h : Handle}

/-- A matrix is not read as a number, whatever it is called. -/
theorem toOption_integer_of_matrix (kind : t.kind? h = some .matrix)
    (clean : ∀ x, s.get? h = some x → x.double? = none) : (s.integer t h).toOption = none := by
  obtain ⟨v, hv, hk⟩ := Option.map_eq_some_iff.mp kind
  rw [toOption_integer, Table.appearance?, hv, Option.map_some, Option.bind_some]
  split
  · simp [Variable.appearance, Variable.literalInteger?, hk]
  · cases hx : s.get? h with
    | none => rfl
    | some x =>
        have := clean x hx
        cases x <;> simp_all [Value.double?, Value.integer?]

theorem toOption_double_of_matrix (kind : t.kind? h = some .matrix)
    (clean : ∀ x, s.get? h = some x → x.double? = none) : (s.double t h).toOption = none := by
  obtain ⟨v, hv, hk⟩ := Option.map_eq_some_iff.mp kind
  rw [toOption_double, Table.appearance?, hv, Option.map_some, Option.bind_some]
  split
  · simp [Variable.appearance, Variable.literalDouble?, hk, Kind.isScalar]
  · cases hx : s.get? h with
    | none => rfl
    | some x => exact clean x hx

end Store

/-- Matrices that hold the same value are read alike. -/
theorem SameReading.of_matrix {t t' : Table} {s s' : Store} {h h' : Handle}
    (kind : t.kind? h = some .matrix) (kind' : t'.kind? h' = some .matrix)
    (value : s'.get? h' = s.get? h) (clean : ∀ x, s.get? h = some x → x.double? = none) :
    SameReading t t' s s' h h' where
  kind := by rw [kind, kind']
  integer := by
    rw [Store.toOption_integer_of_matrix kind clean, Store.toOption_integer_of_matrix kind']
    rwa [value]
  double := by
    rw [Store.toOption_double_of_matrix kind clean, Store.toOption_double_of_matrix kind']
    rwa [value]
  matrix := by
    rw [Store.toOption_matrix, Store.toOption_matrix, Store.matrix?, Store.matrix?, value]

namespace Instruction

/-- What is written into a matrix is a matrix. -/
theorem double?_of_evaluate {i : Instruction} {t : Table} {m : Machine} {e : Effect}
    (he : (i.evaluate t m).toOption = some e) (kind : t.kind? e.target = some .matrix) :
    e.value.double? = none := by
  rw [toOption_evaluate] at he
  obtain ⟨w, -, he⟩ := Option.bind_eq_some_iff.mp he
  obtain ⟨r, hr, rfl⟩ := Option.map_eq_some_iff.mp he
  rw [result, kind, Option.bind_some] at hr
  split at hr
  · obtain ⟨x, -, rfl⟩ := Option.map_eq_some_iff.mp hr
    rfl
  · split at hr
    · obtain ⟨x, -, rfl⟩ := Option.map_eq_some_iff.mp hr
      rfl
    · obtain ⟨x, -, rfl⟩ := Option.map_eq_some_iff.mp hr
      rfl

end Instruction

/-- The temporaries in `p` that are matrices hold no numbers. -/
def Machine.HoldsMatrices (t : Table) (p : Handle → Prop) (m : Machine) : Prop :=
  ∀ h, p h → t.IsTemporary h → t.kind? h = some .matrix →
    ∀ x, m.store.get? h = some x → x.double? = none

/-- The renamed handle looks the same, or both are matrices and the old one is a temporary. -/
def Table.Alike (t t' : Table) (h h' : Handle) : Prop :=
  t'.appearance? h' = t.appearance? h ∨
    t.IsTemporary h ∧ t.kind? h = some .matrix ∧ t'.kind? h' = some .matrix

namespace Table.Alike

variable {t t' : Table} {h h' : Handle} (alike : Table.Alike t t' h h')

include alike

theorem kind? : t'.kind? h' = t.kind? h := by
  rcases alike with same | ⟨-, kind, kind'⟩
  · rw [kind?_eq_appearance?, kind?_eq_appearance?, same]
  · rw [kind, kind']

theorem isOne? : t'.isOne? h' = t.isOne? h := by
  have none {t : Table} {h : Handle} (kind : t.kind? h = some .matrix) : t.isOne? h = some false := by
    obtain ⟨v, hv, hk⟩ := Option.map_eq_some_iff.mp kind
    rw [isOne?_eq_appearance?, appearance?, hv, Option.map_some, Option.map_some]
    simp [Variable.appearance, Variable.literalInteger?, hk]
  rcases alike with same | ⟨-, kind, kind'⟩
  · rw [isOne?_eq_appearance?, isOne?_eq_appearance?, same]
  · rw [none kind, none kind']

theorem sameReading {s s' : Store} (value : s'.get? h' = s.get? h)
    (clean : t.IsTemporary h → t.kind? h = some .matrix →
      ∀ x, s.get? h = some x → x.double? = none) : SameReading t t' s s' h h' := by
  rcases alike with same | ⟨temporary, kind, kind'⟩
  · exact .of_bound same value
  · exact .of_matrix kind kind' value (clean temporary kind)

end Table.Alike

section Simulation

variable {f : Handle → Handle} {t t' : Table} {out : Handle → Prop}

theorem Machine.HoldsMatrices.apply {i : Instruction} {is : List Instruction} {m : Machine}
    (holds : m.HoldsMatrices t (Live t out (i :: is))) {e : Effect}
    (he : (i.evaluate t m).toOption = some e) : (m.apply e).HoldsMatrices t (Live t out is) := by
  intro h live temporary kind x hx
  rw [Machine.get?_apply] at hx
  split at hx
  · next target =>
      obtain rfl := Option.some.inj hx
      exact Instruction.double?_of_evaluate he (target ▸ kind)
  · next other =>
      have output := Instruction.output_of_evaluate he
      exact holds h (.inr ⟨fun ho => other (by simp_all), live⟩) temporary kind x hx

/-- What an instruction depends on is carried over between handles that are alike. -/
theorem Tracks.carries (alike : ∀ h, t.Alike t' h (f h)) {i : Instruction} {is : List Instruction}
    (content : ∀ k ∈ i.range.getD [], t'.content? (f k) = (t.content? k).map (.map f))
    (clear : Clear f t out (i :: is)) {m m' : Machine}
    (tracks : Tracks f (Live t out (i :: is)) m m')
    (holds : m.HoldsMatrices t (Live t out (i :: is))) :
    Instruction.Carries f t t' m.store m'.store i := by
  have live {k : Handle} (hk : k ∈ i.sources t) : Live t out (i :: is) k :=
    .inl (Instruction.mem_uses_of_mem_sources hk)
  have apart (w : Handle) (hw : i.output = some w) := (clear [] i is rfl w hw).2
  have steps (k : Handle) (_ : k ∈ i.steps t) := (alike k).isOne?
  refine ⟨⟨fun k hk => ?_, content, steps⟩, fun w _ => (alike w).kind?, apart, fun w hw hp => ?_,
    fun w hw hp => ⟨fun k hk => ?_, content, steps⟩⟩
  · exact (alike k).sameReading (tracks.value k (live hk)) (holds k (live hk))
  · rw [Store.matrix?, Store.matrix?,
      tracks.value w (.inl (Instruction.mem_uses_of_isPartial hw hp))]
  · -- the whole is out of the store while a part of it is written
    by_cases hkw : k = w
    · subst hkw
      exact (alike k).sameReading (by simp) (by simp)
    · have hf : f k ≠ f w := fun same => hkw (apart w hw (.inr hp) k hk same)
      refine (alike k).sameReading ?_ fun temporary kind x hx => ?_
      · simp [hf, hkw, tracks.value k (live hk)]
      · exact holds k (live hk) temporary kind x (by simpa [hkw] using hx)

/-- A run of renamed instructions gets as far as the run of the instructions themselves, when
handles are renamed to what is alike. -/
theorem Tracks.advance_alike (alike : ∀ h, t.Alike t' h (f h)) {is : List Instruction}
    (content : ∀ i ∈ is, ∀ k ∈ i.range.getD [], t'.content? (f k) = (t.content? k).map (.map f))
    (clear : Clear f t out is) {m m' : Machine} (tracks : Tracks f (Live t out is) m m')
    (holds : m.HoldsMatrices t (Live t out is)) :
    (Machine.advance t' (is.map (.rename f)) m').2 = (Machine.advance t is m).2.map (.rename f) ∧
      Tracks f (Live t out (Machine.advance t is m).2) (Machine.advance t is m).1
        (Machine.advance t' (is.map (.rename f)) m').1 := by
  induction is generalizing m m' with
  | nil => exact ⟨rfl, tracks⟩
  | cons i is ih =>
      obtain ⟨head, tail⟩ := List.forall_mem_cons.mp content
      obtain ⟨same, next⟩ := tracks.of_carries (tracks.carries alike head clear holds) clear
      simp only [List.map_cons, Machine.advance, same]
      cases he : (i.evaluate t m).toOption with
      | none => exact ⟨rfl, tracks⟩
      | some e => exact ih tail clear.tail (next e he) (holds.apply he)

end Simulation

namespace Draft

variable {d d' : Draft}

/-- The first instruction that mentions a temporary writes it, as a whole, and does not read it. -/
def WritesFirst (d : Draft) : Prop :=
  ∀ done i rest, d.program.instructions = done ++ i :: rest →
    ∀ h ∈ i.mentions d.workspace.table, d.workspace.table.IsTemporary h →
    (∀ j ∈ done, h ∉ j.mentions d.workspace.table) →
    i.output = some h ∧ ¬i.isPartial ∧ h ∉ i.sources d.workspace.table

/-- A temporary that is written first is not live at the start. -/
theorem WritesFirst.not_live (writes : d.WritesFirst) (h : Handle)
    (temporary : d.workspace.table.IsTemporary h) :
    ¬Live d.workspace.table d.IsUser d.program.instructions h := by
  refine Live.not_of_used (fun user => user temporary) fun done i rest split used => ?_
  cases found : done.find? (h ∈ Instruction.mentions d.workspace.table ·) with
  | none =>
      have unmentioned : ∀ j ∈ done, h ∉ j.mentions d.workspace.table := by
        simpa using List.find?_eq_none.mp found
      obtain ⟨-, whole, unread⟩ := writes done i rest split h
        (Instruction.mem_mentions_of_mem_uses used) temporary unmentioned
      simp [Instruction.uses, whole, unread] at used
  | some j =>
      obtain ⟨mentioned, before, after, rfl, unmentioned⟩ := List.find?_eq_some_iff_append.mp found
      have written := (writes before j (after ++ i :: rest) (by simp [split]) h
        (by simpa using mentioned) temporary (by simpa using unmentioned)).1
      simp [written]

/-- What shares storage is alike, when scalars that do are no literals. -/
theorem HandsOn.alike {kind : Kind} {u : Usage} {f : Handle → Handle} (on : HandsOn kind u f d d')
    (plain : kind ≠ .matrix → ∀ h ∈ d.program.mentions d.workspace.table,
      d.workspace.table.IsTemporary h → ∀ v, d.workspace.table.get? h = some v → v.kind = kind →
      v.isLiteral = false) (h : Handle) :
    d.workspace.table.Alike d'.workspace.table h (f h) := by
  by_cases hm : h ∈ (u.intervals kind).map Interval.handle
  · have hm' : f h ∈ (u.intervals kind).map Interval.handle := by
      obtain ⟨x, hx, rfl⟩ := List.mem_map.mp hm
      exact on.shares.within hx
    obtain ⟨mentioned, temporary, hk⟩ := on.describes.mem_handles_iff.mp hm
    obtain ⟨mentioned', temporary', hk'⟩ := on.describes.mem_handles_iff.mp hm'
    by_cases matrix : kind = .matrix
    · subst matrix
      exact .inr ⟨temporary, hk, (on.renamed.kind? _).trans hk'⟩
    · have known {k : Handle} (mentioned : k ∈ d.program.mentions d.workspace.table)
          (temporary : d.workspace.table.IsTemporary k)
          (hk : d.workspace.table.kind? k = some kind) (a : Appearance)
          (ha : d.workspace.table.appearance? k = some a) : a.isLiteral = false := by
        obtain ⟨v, hv, rfl⟩ := Option.map_eq_some_iff.mp ha
        exact plain matrix k mentioned temporary v hv (by simpa [Table.kind?, hv] using hk)
      refine .inl ((on.renamed.appearance? _).trans ?_)
      exact Table.appearance?_eq_of_kind? (hk'.trans hk.symm) (known mentioned' temporary' hk')
        (known mentioned temporary hk)
  · rw [on.shares.others h hm]
    exact .inl (on.renamed.appearance? h)

end Draft

/-- Sharing is sound in every program that writes its temporaries before it mentions them in any
other way: from every machine, the programs before and after both run to the end, with the same
generator and the same values of the user's variables, or both fail. -/
theorem Drafting.run_shareTemporaries {d : Draft}
    (covered : ∀ i ∈ d.program.instructions, i.Covered d.workspace.table) (writes : d.WritesFirst)
    {kind : Kind} (hk : kind ≠ .sequence)
    (plain : kind ≠ .matrix → ∀ h ∈ d.program.mentions d.workspace.table,
      d.workspace.table.IsTemporary h → ∀ v, d.workspace.table.get? h = some v → v.kind = kind →
      v.isLiteral = false) :
    ∃ n d', Yields (shareTemporaries kind) d n d' ∧ ∀ m : Machine,
      (∃ m₁ m₂, Yields (Machine.run d.workspace.table d.program) m () m₁ ∧
        Yields (Machine.run d'.workspace.table d'.program) m () m₂ ∧
        m₂.generator = m₁.generator ∧ ∀ h, d.IsUser h → m₂.store.get? h = m₁.store.get? h) ∨
      ∃ m₁ m₂, Fails (Machine.run d.workspace.table d.program) m m₁ ∧
        Fails (Machine.run d'.workspace.table d'.program) m m₂ := by
  obtain ⟨u, n, d', f, -, ran, on⟩ := handsOn_shareTemporaries covered hk
  refine ⟨n, d', ran, fun m => ?_⟩
  have opened := writes.not_live
  have start : Tracks f (Live d.workspace.table d.IsUser d.program.instructions) m m :=
    ⟨fun h live => by rw [on.fixed fun temporary => opened h temporary live], rfl⟩
  obtain ⟨left, tracks⟩ := Tracks.advance_alike (on.alike plain)
    (fun i hi k hk => on.renamed.content? on.keeps (List.mem_flatMap.mpr ⟨i, hi, hk⟩))
    (Sharing.clear_of_shares opened on.describes on.shares) start
    fun h live temporary => absurd live (opened h temporary)
  rw [← on.renamed.instructions] at left tracks
  refine Draft.runs_of_advance ?_ (fun _ => tracks.generator) fun done h user => ?_
  · rw [Draft.advance, Draft.advance, left, List.map_eq_nil_iff]
  · have value := tracks.value h
    rw [on.fixed user, show (Machine.advance _ _ m).2 = [] from done] at value
    exact value user

/-- Writes `x` twice, and `y` through a temporary that is there beforehand. -/
def Drafting.secondUse : Drafting Unit := do
  let negated ← apply (Request.unary .negate ⟨0⟩).perform
  let _ ← apply (Request.copy negated ⟨1⟩).perform
  let _ ← apply (Request.copy ⟨0⟩ ⟨3⟩).perform
  let _ ← apply (Request.copy ⟨3⟩ ⟨2⟩).perform
  let _ ← apply (Request.copy ⟨0⟩ ⟨1⟩).perform

/-- The draft of these instructions, in which the temporary has the given name. -/
def Draft.secondUse (name : String) : Draft :=
  ofEquation .secondUse ⟨⟨#[.named "n" .integer, .named "x" .integer, .named "y" .integer,
    .fresh name .integer], []⟩, ⟨.zero, .zero, []⟩⟩

theorem Drafting.run_shareTemporaries_secondUse :
    let d := Draft.secondUse "s"
    let m : Machine := ⟨Store.empty.set ⟨0⟩ (.integer 7), .initial⟩
    d.WritesFirst ∧ ∃ d' m₂, Yields (shareTemporaries .integer) d 1 d' ∧
      Yields (Machine.run d'.workspace.table d'.program) m () m₂ ∧
      (m₂.store.get? ⟨2⟩).bind Value.integer? = some 7 := by
  intro d m
  obtain ⟨_, listed⟩ := Option.isSome_iff_exists.mp
    (show (d.program.temporaries d.workspace.table).toOption.isSome by decide +kernel)
  have writes : d.WritesFirst := forall_of_take (by decide +kernel)
  have plain : ∀ h ∈ d.program.mentions d.workspace.table, d.workspace.table.IsTemporary h →
      ∀ v ∈ d.workspace.table.get? h, v.kind = .integer → v.isLiteral = false := by decide +kernel
  obtain ⟨n, d', shared, agree⟩ := run_shareTemporaries (Program.temporaries_spec listed).1 writes
    (show Kind.integer ≠ .sequence by decide) fun _ => plain
  have saved : ((shareTemporaries .integer).run.run d).1.toOption = some 1 := by decide +kernel
  obtain rfl : n = 1 := by simpa [show (shareTemporaries .integer).run.run d = _ from shared] using saved
  have ran : Yields (Machine.run d.workspace.table d.program) m () _ :=
    yields_of_toOption (by decide +kernel)
  obtain ⟨m₁, m₂, plain, ran', -, same⟩ | ⟨m₁, -, failed, -⟩ := agree m
  · refine ⟨writes, d', m₂, shared, ran', ?_⟩
    rw [same ⟨2⟩ (by decide +kernel), plain.unique ran]
    decide +kernel
  · exact absurd failed ran.not_fails

/-- A temporary with the name of a literal is read as that literal, and no longer so when it shares
the storage of another one. -/
theorem Draft.secondUse_literal :
    let d := secondUse (LiteralName.integer 5)
    let m : Machine := ⟨Store.empty.set ⟨0⟩ (.integer 7), .initial⟩
    d.WritesFirst ∧ ∃ n d' m₁ m₂, Yields (Drafting.shareTemporaries .integer) d n d' ∧
      Yields (Machine.run d.workspace.table d.program) m () m₁ ∧
      Yields (Machine.run d'.workspace.table d'.program) m () m₂ ∧
      (m₁.store.get? ⟨2⟩).bind Value.integer? = some 5 ∧
      (m₂.store.get? ⟨2⟩).bind Value.integer? = some 7 := by
  intro d m
  obtain ⟨n, shared⟩ : ∃ n, Yields (Drafting.shareTemporaries .integer) d n _ :=
    exists_yields (by decide +kernel)
  refine ⟨forall_of_take (by decide +kernel), n, _, _, _, shared, yields_of_toOption ?_,
    yields_of_toOption ?_, ?_, ?_⟩
  all_goals decide +kernel

end MatrixCode
