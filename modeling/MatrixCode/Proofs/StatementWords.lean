import MatrixCode.Proofs.Wording
import MatrixCode.Writer.Statement

/-!
The words of statements. What is written for an instruction speaks of the variables that it mentions:
of its operands, of what its ranges go through, of the items that it joins and of its target. Lines are
kept apart by the characters at their ends, so the same holds of the text of a program.
-/

namespace MatrixCode

open Identifier (Cites isPlain)

section Steps

variable {σ α β : Type} {r : σ → σ → Prop}

/-- A computation that only looks goes on with what it gives. -/
theorem StepsBy.outcome_bind {p : α → Prop} {o : Outcome α}
    {f : α → ExceptT Failure (StateM σ) β} (first : GivesOnly p o) (rest : ∀ a, p a → StepsBy r (f a)) :
    StepsBy r (liftM o >>= f) := by
  cases o with
  | error e => exact fun _ => .refl
  | ok a => exact rest a (first a rfl)

theorem stepsBy_forM {f : α → ExceptT Failure (StateM σ) Unit}
    {as : List α} (each : ∀ a ∈ as, StepsBy r (f a)) : StepsBy r (as.forM f) := by
  induction as with
  | nil => exact stepsBy_pure ()
  | cons a as ih =>
      obtain ⟨first, others⟩ := List.forall_mem_cons.mp each
      exact first.bind fun _ => ih others

theorem mapM_outcome (f : β → Outcome α) (bs : List β) :
    (bs.mapM fun b => (liftM (f b) : ExceptT Failure (StateM σ) α)) = liftM (bs.mapM f) := by
  induction bs with
  | nil => simp
  | cons b bs ih => simp [List.mapM_cons, ih]

end Steps

section Extents

variable {t : Table} {style : IndexStyle} {cited : String → Prop} {h : Handle}

/-- The length, the library and the variable speak only of what is cited. -/
structure IndexStyle.Speaks (style : IndexStyle) (cited : String → Prop) (hs : List Handle) : Prop where
  length : Cites cited style.length
  library : Cites cited style.kernels
  operand : ∀ h ∈ hs, GivesOnly (Cites cited) (style.operand h)

namespace IndexStyle.Speaks

theorem mono {hs hs' : List Handle} (speaks : style.Speaks cited hs) (sub : hs' ⊆ hs) :
    style.Speaks cited hs' :=
  ⟨speaks.length, speaks.library, fun h hh => speaks.operand h (sub hh)⟩

theorem call {hs : List Handle} (speaks : style.Speaks cited hs) {function : String}
    (plain : isPlain function) {arguments : List String} (each : ∀ text ∈ arguments, Cites cited text) :
    Cites cited (style.call function arguments) := by
  have path : Cites cited (style.kernels ++ "::" ++ function) :=
    speaks.library.joined (.of_isPlain plain) (by decide)
  exact (path.joined (.commaSeparated each) (by decide)).followed (by decide)

variable (speaks : style.Speaks cited [h])

include speaks

theorem operandText : GivesOnly (fun o => GivesOnly (Cites cited) (style.operandText o))
    (IndexOperand.ofHandle t h) := by
  refine (givesOnly_fetch t h).bind fun v hv => ?_
  split
  · exact givesOnly_pure (givesOnly_pure (.word _))
  · exact givesOnly_pure (speaks.operand h List.mem_cons_self)

theorem checked {o : IndexOperand} (operand : GivesOnly (Cites cited) (style.operandText o)) :
    GivesOnly (Cites cited) (style.position (.checked o)) ∧
      GivesOnly (Cites cited) (style.position (.checkedAfter o)) :=
  ⟨operand.bind fun text cites => givesOnly_pure (speaks.call (by decide) (by simpa using cites)),
    operand.bind fun text cites => givesOnly_pure (speaks.call (by decide) (by simpa using cites))⟩

theorem ofHandle : GivesOnly (fun p => GivesOnly (Cites cited) (style.position p))
    (Position.ofHandle t h) := by
  refine speaks.operandText.bind fun o operand => ?_
  split
  · refine givesOnly_pure ?_
    split
    · exact givesOnly_pure (.word _)
    · exact (speaks.checked operand).1
  · exact givesOnly_pure (speaks.checked operand).1

theorem afterHandle : GivesOnly (fun p => GivesOnly (Cites cited) (style.position p))
    (Position.afterHandle t h) := by
  refine speaks.operandText.bind fun o operand => ?_
  split
  · split
    · refine givesOnly_pure ?_
      split
      · exact givesOnly_pure (.word _)
      · exact (speaks.checked operand).2
    · exact givesOnly_pure (speaks.checked operand).2
  · exact givesOnly_pure (speaks.checked operand).2

omit speaks

theorem ofOption {o : Option Handle} (speaks : style.Speaks cited o.toList) (default : Int64) :
    GivesOnly (fun o => GivesOnly (Cites cited) (style.operandText o))
      (IndexOperand.ofOption t default o) := by
  cases o with
  | none => exact givesOnly_pure (givesOnly_pure (.word default))
  | some h => exact speaks.operandText

theorem ofEndpoint {e : Endpoint} (speaks : style.Speaks cited e.handles) :
    GivesOnly (fun p => GivesOnly (Cites cited) (style.position p)) (Position.ofEndpoint t e) := by
  cases e with
  | zero | one => exact givesOnly_pure (givesOnly_pure (.word _))
  | length => exact givesOnly_pure (givesOnly_pure speaks.length)
  | value h => exact speaks.ofHandle
  | past h => exact speaks.afterHandle

theorem ofPart {part : Part} (speaks : style.Speaks cited part.handles) :
    GivesOnly (fun c => GivesOnly (Cites cited) (style.chunk c)) (Chunk.ofPart t part) := by
  cases part with
  | single h =>
      exact speaks.ofHandle.bind fun p position => givesOnly_pure (position.bind fun text cites =>
        givesOnly_pure ((cites.preceded (by decide)).followed (by decide)))
  | span first step last =>
      have one : style.Speaks cited [first] := speaks.mono (by simp [Part.handles])
      have two : style.Speaks cited step.toList := speaks.mono fun h hh => by simp [Part.handles, hh]
      have three : style.Speaks cited [last] := speaks.mono (by simp [Part.handles])
      exact one.operandText.bind fun x first => (two.ofOption 1).bind fun y step =>
        three.operandText.bind fun z last => givesOnly_pure (first.bind fun text h =>
          step.bind fun text' h' => last.bind fun text'' h'' =>
            givesOnly_pure (speaks.call (by decide) (by simpa using ⟨h, h', h''⟩)))
  | toEnd first step =>
      have one : style.Speaks cited first.toList := speaks.mono fun h hh => by simp [Part.handles, hh]
      have two : style.Speaks cited step.toList := speaks.mono fun h hh => by simp [Part.handles, hh]
      exact (one.ofOption 0).bind fun x first => (two.ofOption 1).bind fun y step =>
        givesOnly_pure (first.bind fun text h => step.bind fun text' h' =>
          givesOnly_pure (speaks.call (by decide) (by simpa using ⟨h, h', speaks.length⟩)))

theorem joined {chunks : List Chunk}
    (each : ∀ c ∈ chunks, GivesOnly (Cites cited) (style.chunk c)) :
    GivesOnly (Cites cited) (style.joined chunks) := by
  refine (GivesOnly.mapM each).bind fun texts each => ?_
  have join : Cites cited ("[" ++ ", ".intercalate texts ++ "].concat()") :=
    ((Cites.commaSeparated each).preceded (by decide)).followed (by decide)
  match texts with
  | [] | _ :: _ :: _ => exact givesOnly_pure join
  | [text] =>
      refine givesOnly_pure ?_
      split
      · exact join
      · exact each text List.mem_cons_self

end IndexStyle.Speaks

/-- The texts of an extent. -/
def ExtentText.Cites (cited : String → Prop) : ExtentText → Prop
  | block start stop => Identifier.Cites cited start ∧ Identifier.Cites cited stop
  | indices text => Identifier.Cites cited text

theorem ExtentText.Cites.asList {e : ExtentText} (cites : e.Cites cited) :
    Identifier.Cites cited e.asList := by
  cases e with
  | block start stop =>
      exact ((cites.1.preceded (by decide)).joined cites.2 (by decide)).followed (by decide)
  | indices text => exact cites

theorem Extent.cites_render {e : Extent} (speaks : style.Speaks cited e.handles) :
    GivesOnly (ExtentText.Cites cited) (e.render t style) := by
  cases e with
  | block start stop =>
      have first : style.Speaks cited start.handles := speaks.mono (List.subset_append_left _ _)
      have last : style.Speaks cited stop.handles := speaks.mono (List.subset_append_right _ _)
      refine GivesOnly.bind (p := fun e => ∃ p q, e = .interval p q ∧
          GivesOnly (Cites cited) (style.position p) ∧ GivesOnly (Cites cited) (style.position q))
        (first.ofEndpoint.bind fun p hp => last.ofEndpoint.bind fun q hq =>
          givesOnly_pure ⟨p, q, rfl, hp, hq⟩) ?_
      rintro _ ⟨p, q, rfl, hp, hq⟩
      exact hp.bind fun text h => hq.bind fun text' h' => givesOnly_pure ⟨h, h'⟩
  | listed parts =>
      have each : ∀ part ∈ parts, style.Speaks cited part.handles := fun part hp =>
        speaks.mono fun h hh => List.mem_flatMap.mpr ⟨part, hp, hh⟩
      refine GivesOnly.bind (p := fun e => ∃ cs, e = .joined cs ∧
          ∀ c ∈ cs, GivesOnly (Cites cited) (style.chunk c))
        ((GivesOnly.mapM fun part hp => (each part hp).ofPart).bind fun cs h =>
          givesOnly_pure ⟨cs, rfl, h⟩) ?_
      rintro _ ⟨cs, rfl, h⟩
      exact (IndexStyle.Speaks.joined h).bind fun text h => givesOnly_pure h

end Extents

namespace KernelCall

variable {i : Instruction} {c : KernelCall}

theorem isPlain_of_scalar? (h : scalar? i = some c) : isPlain c.function := by
  unfold scalar? at h
  repeat' split at h
  all_goals cases h
  all_goals decide

theorem isPlain_of_matrix? {p : Primitive} {signature : Signature} (h : matrix? p signature = some c) :
    isPlain c.function := by
  unfold matrix? at h
  split at h <;> cases h <;> decide

theorem isPlain_of_into? {p : Primitive} (h : into? p = some c) : isPlain c.function := by
  unfold into? at h
  split at h <;> cases h <;> decide

end KernelCall

/-- One call writes a line, in which only what is cited looks like a temporary. -/
def Writer.Line (w : Writer) (cited : String → Prop) (s s' : String) : Prop :=
  ∃ text, Cites cited text ∧ s' = s ++ w.indent ++ text ++ "\n"

namespace Writer

variable {w : Writer} {t : Table} {cited : String → Prop} {i : Instruction}

theorem stepsBy_line {text : String} (cites : Cites cited text) :
    StepsBy (w.Line cited) (w.line text) :=
  fun _ => .single ⟨text, cites, rfl⟩

theorem cites_assignment {left right : String} (h : Cites cited left) (h' : Cites cited right) :
    Cites cited (assignment left right) :=
  (h.joined h' (by decide)).followed (by decide)

section Calls

variable (library : Cites cited w.kernels) (speaks : ∀ h ∈ i.inputs, t.Speaks cited h)

theorem cites_dimension (speaks : ∀ h ∈ i.inputs, t.Speaks cited h) (d : Dimension) :
    GivesOnly (Cites cited) (dimension t i d) := by
  cases d
  all_goals
    refine (givesOnly_input i _).bind fun h hh => (cites_receiver (speaks h hh)).bind fun text cites => ?_
    exact givesOnly_pure (cites.followed (by decide))

theorem cites_argument (speaks : ∀ h ∈ i.inputs, t.Speaks cited h) (a : Argument) :
    GivesOnly (Cites cited) (w.argument t i a) := by
  cases a with
  | matrix position =>
      exact (givesOnly_input i position).bind fun h hh => cites_reference (speaks h hh)
  | double position => exact (givesOnly_input i position).bind fun h hh => cites_double (speaks h hh)
  | integer position => exact (givesOnly_input i position).bind fun h hh => cites_scalar (speaks h hh)
  | index position => exact (givesOnly_input i position).bind fun h hh => cites_index (speaks h hh)
  | generator => exact givesOnly_pure (.of_isPlain (by decide))

include library speaks

theorem cites_kernelCall {c : KernelCall} (plain : isPlain c.function) {extra : List String}
    (each : ∀ text ∈ extra, Cites cited text) : GivesOnly (Cites cited) (w.kernelCall t i c extra) :=
  (GivesOnly.mapM fun a _ => cites_argument speaks a).bind fun _ cites =>
    givesOnly_pure (.call (cites_path library plain) (List.forall_mem_append.mpr ⟨cites, each⟩) c.fallible)

theorem cites_scalarExpression :
    GivesOnly (fun e => ∀ s ∈ e, Cites cited s.text) (w.scalarExpression t i) := by
  refine givesOnly_bind _ fun scalars => ?_
  split
  · cases instruction : Phrase.ofInstruction? i with
    | none => exact givesOnly_pure (by simp)
    | some phrase =>
        have cites := cites_phrase library (Phrase.isPlain_of_ofInstruction? instruction)
          fun h hh => speaks h (Phrase.handles_of_ofInstruction? instruction hh)
        exact cites.bind fun s h => givesOnly_pure (by simpa using h)
  · exact givesOnly_pure (by simp)

theorem stepsBy_scalarStatement {target : Handle} (ht : t.Speaks cited target) :
    StepsBy (w.Line cited) (w.scalarStatement t i target) := by
  refine .outcome_bind (cites_leftSide ht) fun left hl => ?_
  refine .outcome_bind (cites_scalarExpression library speaks) fun e he => ?_
  split
  · next s => exact stepsBy_line (cites_assignment hl (he s rfl))
  · split
    · refine .outcome_bind (givesOnly_input i 0) fun h hh => ?_
      refine .outcome_bind (cites_scalar (speaks h hh)) fun seed hs => ?_
      have call : Cites cited ("rng.reseed(" ++ seed ++ " as u64);") :=
        (hs.preceded (by decide)).followed (by decide)
      exact (stepsBy_line call).bind fun _ => stepsBy_line (cites_assignment hl hs)
    · split
      · next c found =>
          exact .outcome_bind (cites_kernelCall library speaks (KernelCall.isPlain_of_scalar? found)
            (by simp)) fun right hr => stepsBy_line (cites_assignment hl hr)
      · exact stepsBy_outcome (.error _)

theorem stepsBy_inPlaceStatement {target : Handle} (ht : t.Speaks cited target) :
    StepsBy (w.Line cited) (w.inPlaceStatement t i target) := by
  unfold inPlaceStatement
  split
  · next rows cols same =>
      refine .outcome_bind (cites_dimension speaks rows) fun rows hr => ?_
      refine .outcome_bind (cites_dimension speaks cols) fun cols hc => ?_
      refine .outcome_bind (cites_receiver ht) fun whole hw => ?_
      have sizes : Cites cited (commaSeparated [rows, cols, "0.0"]) :=
        .commaSeparated (by simpa using ⟨hr, hc, .of_isPlain (by decide)⟩)
      refine (stepsBy_line ((hw.joined sizes (by decide)).followed (by decide))).bind fun _ => ?_
      split
      · next c found =>
          refine .outcome_bind (cites_mutable ht) fun written hm => ?_
          exact .outcome_bind (cites_kernelCall library speaks (KernelCall.isPlain_of_into? found)
            (by simpa using hm)) fun call h => stepsBy_line (h.followed (by decide))
      · exact stepsBy_outcome (.error _)
  · exact stepsBy_outcome (.error _)

end Calls

section Ranges

variable (library : Cites cited w.kernels) {range : List Handle} {addressing : Addressing}

include library

theorem speaks_indexStyle {length : String} (sized : Cites cited length) {hs : List Handle}
    (speaks : ∀ h ∈ hs, t.Speaks cited h) : (w.indexStyle t length).Speaks cited hs :=
  ⟨sized, library, fun h hh => cites_index (speaks h hh)⟩

theorem cites_extent {length : String} (sized : Cites cited length) {e : Extent}
    (speaks : ∀ h ∈ e.handles, t.Speaks cited h) :
    GivesOnly (ExtentText.Cites cited) (w.extent t e length) :=
  Extent.cites_render (speaks_indexStyle library sized speaks)

omit library in
theorem cites_classify (speaks : ∀ h ∈ range.flatMap t.through, t.Speaks cited h) :
    GivesOnly (fun a => ∀ h ∈ a.handles, t.Speaks cited h) (Addressing.classify t range) :=
  fun _ classified h hh => speaks h
    (Addressing.handles_of_classify (Outcome.toOption_eq_some.mpr classified) h hh)

theorem cites_extraction (speaks : ∀ h ∈ i.sources t, t.Speaks cited h) :
    GivesOnly (Cites cited) (w.extraction t i) := by
  unfold extraction
  split
  · next range hr =>
      have within : ∀ h ∈ range.flatMap t.through, t.Speaks cited h := fun h hh =>
        speaks h (by simp [Instruction.sources, hr, List.mem_flatMap.mp hh])
      refine (cites_classify within).bind fun a selected => ?_
      refine (givesOnly_input i 0).bind fun source hs => ?_
      have hs := speaks source (Instruction.mem_sources_of_mem_inputs hs)
      refine (cites_receiver hs).bind fun whole hw => (cites_reference hs).bind fun source hs => ?_
      cases a with
      | flat elements =>
          refine (cites_extent library (hw.followed (by decide)) selected).bind fun e he => ?_
          refine givesOnly_pure (.call (cites_path library (by decide)) ?_ true)
          simpa using ⟨hs, he.asList.preceded (by decide)⟩
      | grid rows cols =>
          obtain ⟨first, second⟩ := List.forall_mem_append.mp selected
          refine (cites_extent library (hw.followed (by decide)) first).bind fun r hr => ?_
          refine (cites_extent library (hw.followed (by decide)) second).bind fun c hc => ?_
          split
          · refine givesOnly_pure (.call (cites_path library (by decide)) ?_ true)
            simpa using ⟨hs, hr.1, hr.2, hc.1, hc.2⟩
          · refine givesOnly_pure (.call (cites_path library (by decide)) ?_ true)
            simpa using ⟨hs, hr.asList.preceded (by decide), hc.asList.preceded (by decide)⟩
  · exact givesOnly_error _

theorem cites_matrixExpression (speaks : ∀ h ∈ i.sources t, t.Speaks cited h) :
    GivesOnly (Cites cited) (w.matrixExpression t i) := by
  have inputs : ∀ h ∈ i.inputs, t.Speaks cited h := fun h hh =>
    speaks h (Instruction.mem_sources_of_mem_inputs hh)
  unfold matrixExpression
  split
  · exact (givesOnly_input i 0).bind fun h hh => (cites_receiver (inputs h hh)).bind fun text cites =>
      givesOnly_pure (cites.followed (by decide))
  · exact cites_extraction library speaks
  · split
    · next c found =>
        exact cites_kernelCall library inputs (KernelCall.isPlain_of_matrix? found) (by simp)
    · exact givesOnly_error _

theorem stepsBy_matrixStatement (speaks : ∀ h ∈ i.sources t, t.Speaks cited h) {target : Handle}
    (ht : t.Speaks cited target) : StepsBy (w.Line cited) (w.matrixStatement t i target) := by
  have inputs : ∀ h ∈ i.inputs, t.Speaks cited h := fun h hh =>
    speaks h (Instruction.mem_sources_of_mem_inputs hh)
  unfold matrixStatement
  split
  · exact stepsBy_pure ()
  · split
    · exact stepsBy_inPlaceStatement library inputs ht
    · exact .outcome_bind (cites_matrixExpression library speaks) fun right hr =>
        .outcome_bind (cites_leftSide ht) fun left hl => stepsBy_line (cites_assignment hl hr)

omit library in
theorem cites_copySource {source target : Handle} (hs : t.Speaks cited source)
    (ht : t.Speaks cited target) : GivesOnly (fun source => Cites cited source.1 ∧
      source.2 ∈ ["insert", "fill"]) (w.copySource t i source target) := by
  unfold copySource
  split
  · split
    · exact (cites_receiver ht).bind fun text cites =>
        givesOnly_pure ⟨(cites.preceded (by decide)).followed (by decide), by simp⟩
    · exact (cites_reference hs).bind fun text cites => givesOnly_pure ⟨cites, by simp⟩
  · exact (cites_double hs).bind fun text cites => givesOnly_pure ⟨cites, by simp⟩
  · exact givesOnly_error _

theorem cites_copyRangeStatements (speaks : ∀ h ∈ i.sources t, t.Speaks cited h) {target : Handle}
    (ht : t.Speaks cited target) :
    GivesOnly (fun lines => ∀ line ∈ lines, Cites cited line) (w.copyRangeStatements t i target) := by
  refine (givesOnly_input i 0).bind fun source hs => ?_
  have hs := speaks source (Instruction.mem_sources_of_mem_inputs hs)
  split
  · next range hr =>
      have within : ∀ h ∈ range.flatMap t.through, t.Speaks cited h := fun h hh =>
        speaks h (by simp [Instruction.sources, hr, List.mem_flatMap.mp hh])
      refine (cites_classify within).bind fun a selected => ?_
      refine (cites_receiver ht).bind fun whole hw => (cites_mutable ht).bind fun written hm => ?_
      refine (cites_copySource hs ht).bind ?_
      rintro ⟨value, verb⟩ ⟨hv, verbs⟩
      have write {suffix : String} (known : suffix ∈ ["_flat", "_block", "_indices"])
          {indices : List String} (fixed : ∀ text ∈ indices, isPlain text) :
          Cites cited (call (w.path (verb ++ suffix)) (written :: value :: indices) true ++ ";") := by
        have plain : ∀ verb ∈ ["insert", "fill"], ∀ suffix ∈ ["_flat", "_block", "_indices"],
            isPlain (verb ++ suffix) := by decide
        have each : ∀ text ∈ written :: value :: indices, Cites cited text := by
          simpa using ⟨hm, hv, fun text ht => .of_isPlain (fixed text ht)⟩
        exact (Cites.call (cites_path library (plain verb verbs suffix known)) each true).followed
          (by decide)
      have assigned {left right : String} (plain : isPlain left) (h : Cites cited right) :
          Cites cited (assignment left right) :=
        cites_assignment (.of_isPlain plain) h
      cases a with
      | flat elements =>
          refine (cites_extent library (hw.followed (by decide)) selected).bind fun e he => ?_
          refine givesOnly_pure (List.forall_mem_cons.mpr ⟨assigned (by decide) he.asList, ?_⟩)
          simpa using write (by decide) (by decide)
      | grid rows cols =>
          obtain ⟨first, second⟩ := List.forall_mem_append.mp selected
          refine (cites_extent library (hw.followed (by decide)) first).bind fun r hr => ?_
          refine (cites_extent library (hw.followed (by decide)) second).bind fun c hc => ?_
          have pair {start stop : String} (h : Cites cited start) (h' : Cites cited stop) :
              Cites cited (inParentheses (commaSeparated [start, stop])) :=
            (Cites.commaSeparated (by simpa using ⟨h, h'⟩)).inParentheses
          split
          · refine givesOnly_pure (List.forall_mem_cons.mpr
              ⟨assigned (by decide) (pair hr.1 hr.2), List.forall_mem_cons.mpr
                ⟨assigned (by decide) (pair hc.1 hc.2), ?_⟩⟩)
            simpa using write (by decide) (by decide)
          · refine givesOnly_pure (List.forall_mem_cons.mpr
              ⟨assigned (by decide) hr.asList, List.forall_mem_cons.mpr
                ⟨assigned (by decide) hc.asList, ?_⟩⟩)
            simpa using write (by decide) (by decide)
  · exact givesOnly_error _

theorem stepsBy_copyRangeStatement (speaks : ∀ h ∈ i.sources t, t.Speaks cited h) {target : Handle}
    (ht : t.Speaks cited target) : StepsBy (w.Line cited) (w.copyRangeStatement t i target) := by
  refine .outcome_bind (cites_copyRangeStatements library speaks ht) fun lines each => ?_
  refine (stepsBy_line (.of_isPlain (by decide))).bind fun _ => ?_
  have inner : StepsBy (w.Line cited) (lines.forM fun line => w.line ("    " ++ line)) :=
    stepsBy_forM fun line hl => stepsBy_line ((each line hl).preceded (by decide))
  exact inner.bind fun _ => stepsBy_line (.of_isPlain (by decide))

theorem cites_item {h : Handle} (speaks : t.Speaks cited h) : GivesOnly (Cites cited) (w.item t h) := by
  refine givesOnly_bind _ fun kind => ?_
  split
  · exact (cites_receiver speaks).bind fun text cites => givesOnly_pure (cites.followed (by decide))
  · exact (cites_double speaks).bind fun text cites =>
      givesOnly_pure (.call (cites_path library (by decide)) (by simpa using cites) false)
  · exact (cites_double speaks).bind fun text cites =>
      givesOnly_pure (.call (cites_path library (by decide)) (by simpa using cites) false)
  · exact givesOnly_error _

theorem stepsBy_assembleStatement (speaks : ∀ h ∈ i.items, t.Speaks cited h) {target : Handle}
    (ht : t.Speaks cited target) : StepsBy (w.Line cited) (w.assembleStatement t i target) := by
  unfold assembleStatement
  split
  · next blocks hb =>
      -- the items are spelled before anything is written
      have looked : (blocks.mapM fun row => do
            let items ← row.mapM fun h => (w.item t h : Emission String)
            return vector items) =
          liftM (blocks.mapM fun row => return vector (← row.mapM (w.item t))) := by
        simp only [mapM_outcome]
        rw [← mapM_outcome]
        simp
      rw [looked]
      have rows : GivesOnly (fun texts => ∀ text ∈ texts, Cites cited text)
          (blocks.mapM fun row => return vector (← row.mapM (w.item t))) :=
        GivesOnly.mapM fun row hr => (GivesOnly.mapM fun h hh => cites_item library (speaks h
          (by simpa [Instruction.items, hb] using ⟨row, hr, hh⟩))).bind fun texts each =>
            givesOnly_pure (((Cites.commaSeparated each).preceded (by decide)).followed (by decide))
      refine .outcome_bind rows fun rows hr => .outcome_bind (cites_leftSide ht) fun left hl => ?_
      have list : Cites cited ("&[" ++ commaSeparated rows ++ "]") :=
        ((Cites.commaSeparated hr).preceded (by decide)).followed (by decide)
      exact stepsBy_line (cites_assignment hl
        (.call (cites_path library (by decide)) (by simpa using list) true))
  · exact stepsBy_outcome (.error _)

/-- A statement speaks of what the instruction mentions. -/
theorem stepsBy_statement (speaks : ∀ h ∈ i.mentions t, t.Speaks cited h) :
    StepsBy (w.Line cited) (w.statement t i) := by
  have sources : ∀ h ∈ i.sources t, t.Speaks cited h := fun h hh =>
    speaks h (Instruction.mem_mentions_of_mem_sources hh)
  have inputs : ∀ h ∈ i.inputs, t.Speaks cited h := fun h hh =>
    sources h (Instruction.mem_sources_of_mem_inputs hh)
  have target : GivesOnly (t.Speaks cited) i.target := by
    intro h found
    refine speaks h (Instruction.mem_mentions_of_output ?_)
    unfold Instruction.target at found
    split at found
    · next same => exact same.trans (congrArg some (Except.ok.inj found))
    · cases found
  refine .outcome_bind target fun target ht => ?_
  split
  · exact stepsBy_copyRangeStatement library sources ht
  · split
    · exact stepsBy_assembleStatement library
        (fun h hh => sources h (List.mem_append_right _ hh)) ht
    · refine (stepsBy_outcome _).bind fun kind => ?_
      split
      · exact stepsBy_scalarStatement library inputs ht
      · exact stepsBy_scalarStatement library inputs ht
      · exact stepsBy_matrixStatement library sources ht
      · exact stepsBy_outcome (.error _)

end Ranges

/-- The text ends with a separator, if at all, and only what is cited looks like a temporary. -/
structure Finished (cited : String → Prop) (text : String) : Prop where
  cites : Cites cited text
  separated : ∀ c ∈ text.toList.getLast?, Identifier.isPart c = false

theorem Finished.append {text text' : String} (h : Finished cited text) (h' : Cites cited text') :
    Cites cited (text ++ text') := by
  cases final : text.toList.getLast? with
  | none =>
      have empty : text = "" := by simpa using final
      simpa [empty] using h'
  | some c => exact h.cites.after h' (by simp [final, h.separated c final])

/-- Lines are kept apart by the characters at their ends. -/
theorem Finished.line {s s' : String} (blank : ∀ c ∈ w.indent.toList, Identifier.isPart c = false)
    (finished : Finished cited s) (line : w.Line cited s s') : Finished cited s' := by
  obtain ⟨text, cites, rfl⟩ := line
  have letter : 't' ∉ w.indent.toList := fun h => absurd (blank 't' h) (by decide)
  have indent : Finished cited w.indent :=
    ⟨.of_notMem letter, fun c hc => blank c (List.mem_of_getLast? hc)⟩
  refine ⟨?_, fun c hc => ?_⟩
  · rw [String.append_assoc, String.append_assoc]
    exact finished.append (indent.append (cites.followed (by decide)))
  · obtain rfl : '\n' = c := by simpa using hc
    decide

/-- In the text of a program, what looks like a temporary is in the name of a variable that the
program mentions. -/
theorem cites_body (library : Cites cited w.kernels)
    (blank : ∀ c ∈ w.indent.toList, Identifier.isPart c = false) {p : Program}
    (speaks : ∀ h ∈ p.mentions t, t.Speaks cited h) : GivesOnly (Cites cited) (w.body t p) := by
  intro text written
  have steps : StepsBy (w.Line cited) (p.instructions.forM (w.statement t)) :=
    stepsBy_forM fun i hi => stepsBy_statement library fun h hh =>
      speaks h (List.mem_flatMap.mpr ⟨i, hi, hh⟩)
  have finished := steps.keeps (p := Finished cited) (fun _ _ line finished => finished.line blank line)
    (s := "") ⟨.of_isPlain (by decide), by simp⟩
  unfold body textOf at written
  split at written
  · next same =>
      rw [same] at finished
      exact Except.ok.inj written ▸ finished.cites
  · cases written

end Writer
end MatrixCode
