import MatrixCode.Proofs.Reading

/-!
Addressing under a renaming of handles. How a range is classified depends on its
form and on whether its step is the literal one; which indices it selects depends
on the values of the handles in it. Renaming the handles of a range changes
neither, as long as the new handles stand for the same.
-/

namespace MatrixCode

namespace Endpoint

def map (f : Handle → Handle) : Endpoint → Endpoint
  | value h => value (f h)
  | past h => past (f h)
  | endpoint => endpoint

def handles : Endpoint → List Handle
  | value h | past h => [h]
  | _ => []

theorem toOption_resolve_map (f : Handle → Handle) (length : Nat)
    (value value' : Handle → Outcome Int64) (e : Endpoint)
    (h : ∀ k ∈ e.handles, (value' (f k)).toOption = (value k).toOption) :
    ((e.map f).resolve length value').toOption = (e.resolve length value).toOption := by
  cases e with
  | zero | one | length => rfl
  | value k | past k => simp [map, resolve, h k (by simp [handles])]

end Endpoint

namespace Part

def map (f : Handle → Handle) : Part → Part
  | single h => single (f h)
  | span first step last => span (f first) (step.map f) (f last)
  | toEnd first step => toEnd (first.map f) (step.map f)

def handles : Part → List Handle
  | single h => [h]
  | span first step last => first :: step.toList ++ [last]
  | toEnd first step => first.toList ++ step.toList

theorem toOption_valueOr_map (f : Handle → Handle) (value value' : Handle → Outcome Int64)
    (default : Int64) (k? : Option Handle)
    (h : ∀ k ∈ k?.toList, (value' (f k)).toOption = (value k).toOption) :
    (valueOr value' default (k?.map f)).toOption = (valueOr value default k?).toOption := by
  cases k? with
  | none => rfl
  | some k => exact h k (by simp)

theorem toOption_resolve_map (f : Handle → Handle) (length : Nat)
    (value value' : Handle → Outcome Int64) (p : Part)
    (h : ∀ k ∈ p.handles, (value' (f k)).toOption = (value k).toOption) :
    ((p.map f).resolve length value').toOption = (p.resolve length value).toOption := by
  cases p with
  | single k => simp [map, resolve, h k (by simp [handles])]
  | span first step last =>
      have hs := toOption_valueOr_map f value value' 1 step
        fun k hk => h k (by simp only [handles]; simp_all)
      simp [map, resolve, hs, h first (by simp [handles]), h last (by simp [handles])]
  | toEnd first step =>
      have hf := toOption_valueOr_map f value value' 0 first
        fun k hk => h k (by simp only [handles]; simp_all)
      have hs := toOption_valueOr_map f value value' 1 step
        fun k hk => h k (by simp only [handles]; simp_all)
      simp [map, resolve, hf, hs]

end Part

namespace IndexRange

mutual

theorem parts_map (f : Handle → Handle) : ∀ r : IndexRange, (r.map f).parts = r.parts.map (.map f)
  | list items => by simp [map, parts, Part.map, Function.comp_def]
  | span first step last => by simp [map, parts, Part.map]
  | toEnd first step => by simp [map, parts, Part.map]
  | union ranges => by simp [map, parts, partsAll_map f ranges]

theorem partsAll_map (f : Handle → Handle) :
    ∀ rs : List IndexRange, partsAll (mapAll f rs) = (partsAll rs).map (.map f)
  | [] => rfl
  | r :: rs => by simp [mapAll, partsAll, parts_map f r, partsAll_map f rs]

end

mutual

/-- Taking a range apart loses no handle. -/
theorem handles_parts : ∀ r : IndexRange, r.parts.flatMap Part.handles = r.referenced
  | list items => by simp [parts, referenced, Part.handles, List.flatMap_map]
  | span first step last => by simp [parts, referenced, Part.handles]
  | toEnd first step => by simp [parts, referenced, Part.handles]
  | union ranges => by simp [parts, referenced, handles_partsAll ranges]

theorem handles_partsAll :
    ∀ rs : List IndexRange, (partsAll rs).flatMap Part.handles = referencedAll rs
  | [] => rfl
  | r :: rs => by simp [partsAll, referencedAll, handles_parts r, handles_partsAll rs]

end

mutual

theorem referenced_map (f : Handle → Handle) :
    ∀ r : IndexRange, (r.map f).referenced = r.referenced.map f
  | list items => by simp [map, referenced]
  | span first step last => by cases step <;> simp [map, referenced]
  | toEnd first step => by cases first <;> cases step <;> simp [map, referenced]
  | union ranges => by simp [map, referenced, referencedAll_map f ranges]

theorem referencedAll_map (f : Handle → Handle) :
    ∀ rs : List IndexRange, referencedAll (mapAll f rs) = (referencedAll rs).map f
  | [] => rfl
  | r :: rs => by simp [mapAll, referencedAll, referenced_map f r, referencedAll_map f rs]

end

mutual

theorem map_map (f g : Handle → Handle) : ∀ r : IndexRange, (r.map f).map g = r.map (g ∘ f)
  | list items => by simp [map]
  | span first step last => by simp [map]
  | toEnd first step => by simp [map]
  | union ranges => by simp [map, mapAll_mapAll f g ranges]

theorem mapAll_mapAll (f g : Handle → Handle) :
    ∀ rs : List IndexRange, mapAll g (mapAll f rs) = mapAll (g ∘ f) rs
  | [] => rfl
  | r :: rs => by simp [mapAll, map_map f g r, mapAll_mapAll f g rs]

end

mutual

theorem map_id : ∀ r : IndexRange, r.map id = r
  | list items => by simp [map]
  | span first step last => by simp [map]
  | toEnd first step => by simp [map]
  | union ranges => by simp [map, mapAll_id ranges]

theorem mapAll_id : ∀ rs : List IndexRange, mapAll id rs = rs
  | [] => rfl
  | r :: rs => by simp [mapAll, map_id r, mapAll_id rs]

end

/-- The step on which the form of the extent depends. -/
def step? : IndexRange → Option Handle
  | span _ step _ | toEnd _ step => step
  | list _ | union _ => none

end IndexRange

namespace Content

/-- Applies a renaming of handles to the range of a sequence. -/
def map (f : Handle → Handle) : Content → Content
  | sequence range => sequence (range.map f)
  | content => content

@[simp] theorem map_id (c : Content) : c.map id = c := by
  cases c <;> simp [map, IndexRange.map_id]

@[simp] theorem kind_map (c : Content) (f : Handle → Handle) : (c.map f).kind = c.kind := by
  cases c <;> rfl

theorem map_of_kind {c : Content} (hc : c.kind ≠ .sequence) (f : Handle → Handle) : c.map f = c := by
  cases c with
  | integer | double | matrix => rfl
  | sequence range => exact absurd rfl hc

theorem eq_of_kind {c c' : Content} (hc : c.kind ≠ .sequence) (same : c'.kind = c.kind) : c' = c := by
  cases c <;> cases c' <;> simp_all [kind]

end Content

namespace Extent

def map (f : Handle → Handle) : Extent → Extent
  | block start stop => block (start.map f) (stop.map f)
  | listed parts => listed (parts.map (.map f))

def handles : Extent → List Handle
  | block start stop => start.handles ++ stop.handles
  | listed parts => parts.flatMap Part.handles

@[simp] theorem toOption_checked {α : Type} (r : Except Fault α) :
    (checked r).toOption = r.toOption := by
  simp [checked]

theorem toOption_resolve_map (f : Handle → Handle) (length : Nat)
    (value value' : Handle → Outcome Int64) (e : Extent)
    (h : ∀ k ∈ e.handles, (value' (f k)).toOption = (value k).toOption) :
    ((e.map f).resolve length value').toOption = (e.resolve length value).toOption := by
  cases e with
  | block start stop =>
      have h₁ := start.toOption_resolve_map f length value value'
        fun k hk => h k (List.mem_append_left _ hk)
      have h₂ := stop.toOption_resolve_map f length value value'
        fun k hk => h k (List.mem_append_right _ hk)
      simp [map, resolve, h₁, h₂]
  | listed parts =>
      simp only [map, resolve, Outcome.toOption_bind, Outcome.toOption_mapM, List.mapM_map]
      congr 1
      apply Outcome.mapM_congr
      intro p hp
      exact p.toOption_resolve_map f length value value'
        fun k hk => h k (List.mem_flatMap.mpr ⟨p, hp, hk⟩)

end Extent

namespace Table

def content? (t : Table) (h : Handle) : Option Content := (t.get? h).map Variable.content

/-- Whether a handle names the literal one. -/
def isOne? (t : Table) (h : Handle) : Option Bool := (t.get? h).map Variable.isLiteralOne

/-- The range of a sequence. -/
def range? (t : Table) (h : Handle) : Option IndexRange := (t.get? h).bind Variable.range?

/-- What is read through a range operand. -/
def through (t : Table) (h : Handle) : List Handle :=
  ((t.range? h).map IndexRange.referenced).getD [h]

theorem range?_eq_some {t : Table} {h : Handle} {r : IndexRange} :
    t.range? h = some r ↔ t.content? h = some (.sequence r) := by
  simp only [range?, content?]
  cases t.get? h with
  | none => simp
  | some v => obtain ⟨_, content, _, _, _⟩ := v; cases content <;> simp [Variable.range?]

end Table

namespace Extent

variable {f : Handle → Handle} {t t' : Table}

theorem toOption_isUnitStep_map (step : Option Handle)
    (h : ∀ k ∈ step.toList, t'.isOne? (f k) = t.isOne? k) :
    (isUnitStep t' (step.map f)).toOption = (isUnitStep t step).toOption := by
  cases step with
  | none => rfl
  | some k =>
      have hk := h k (by simp)
      simp only [Table.isOne?] at hk
      simp only [isUnitStep, Option.map_some, Outcome.toOption_bind, Table.toOption_fetch,
        Outcome.toOption_pure]
      simpa only [Option.map_eq_bind, Function.comp_def] using hk

theorem toOption_ofRange_map {r : IndexRange}
    (h : ∀ k ∈ r.step?.toList, t'.isOne? (f k) = t.isOne? k) :
    (ofRange t' (r.map f)).toOption = (ofRange t r).toOption.map (.map f) := by
  cases r with
  | list items | union ranges => simp [IndexRange.map, ofRange, map, ← IndexRange.parts_map]
  | span first step last =>
      have hs := toOption_isUnitStep_map step h
      simp only [IndexRange.map, ofRange, Outcome.toOption_bind, hs]
      cases (isUnitStep t step).toOption with
      | none => rfl
      | some unit => cases unit <;> simp [map, Endpoint.map, ← IndexRange.parts_map, IndexRange.map]
  | toEnd first step =>
      have hs := toOption_isUnitStep_map step h
      simp only [IndexRange.map, ofRange, Outcome.toOption_bind, hs]
      cases (isUnitStep t step).toOption with
      | none => rfl
      | some unit =>
          cases unit <;> cases first <;>
            simp [map, Endpoint.map, ← IndexRange.parts_map, IndexRange.map]

theorem toOption_classify_map {h : Handle} (hc : t'.content? (f h) = (t.content? h).map (.map f))
    (hs : ∀ r, t.range? h = some r → ∀ k ∈ r.step?.toList, t'.isOne? (f k) = t.isOne? k) :
    (classify t' (f h)).toOption = (classify t h).toOption.map (.map f) := by
  simp only [classify, Outcome.toOption_bind, Table.toOption_lookup]
  simp only [Table.content?] at hc
  cases hv : t.get? h with
  | none => simp_all
  | some v =>
      obtain ⟨v', hv', hc'⟩ : ∃ v', t'.get? (f h) = some v' ∧ v'.content = v.content.map f := by
        simpa [hv] using hc
      simp only [hv', Option.bind_some, hc']
      cases hr : v.content with
      | integer | double | matrix => simp [Content.map, map, Endpoint.map]
      | sequence r =>
          exact toOption_ofRange_map (hs r (by simp [Table.range?, hv, Variable.range?, hr]))

theorem handles_of_ofRange {r : IndexRange} {e : Extent} (he : (ofRange t r).toOption = some e) :
    ∀ k ∈ e.handles, k ∈ r.referenced := by
  cases r with
  | list items | union ranges =>
      obtain rfl : listed _ = e := by simpa [ofRange] using he
      simp [handles, IndexRange.handles_parts]
  | span first step last =>
      simp only [ofRange, Outcome.toOption_bind, Option.bind_eq_some_iff] at he
      obtain ⟨unit, -, he⟩ := he
      cases unit with
      | false =>
          obtain rfl : listed _ = e := by simpa using he
          simp [handles, IndexRange.handles_parts]
      | true =>
          obtain rfl : block _ _ = e := by simpa using he
          simp [handles, Endpoint.handles, IndexRange.referenced]
  | toEnd first step =>
      simp only [ofRange, Outcome.toOption_bind, Option.bind_eq_some_iff] at he
      obtain ⟨unit, -, he⟩ := he
      cases unit with
      | false =>
          obtain rfl : listed _ = e := by simpa using he
          simp [handles, IndexRange.handles_parts]
      | true =>
          obtain rfl : block _ _ = e := by simpa using he
          cases first <;> simp [handles, Endpoint.handles, IndexRange.referenced]

/-- An extent refers to what is read through the range operand that it comes from. -/
theorem handles_of_classify {h : Handle} {e : Extent} (he : (classify t h).toOption = some e) :
    ∀ k ∈ e.handles, k ∈ t.through h := by
  simp only [classify, Outcome.toOption_bind, Table.toOption_lookup, Option.bind_eq_some_iff] at he
  obtain ⟨v, hv, he⟩ := he
  cases hc : v.content with
  | integer | double =>
      obtain rfl : block (.value h) (.past h) = e := by simpa [hc] using he
      simp [handles, Endpoint.handles, Table.through, Table.range?, hv, Variable.range?, hc]
  | matrix => simp [hc] at he
  | sequence r =>
      have hr := handles_of_ofRange (by simpa [hc] using he)
      simpa [Table.through, Table.range?, hv, Variable.range?, hc] using hr

end Extent

namespace Addressing

variable {f : Handle → Handle} {t t' : Table}

def map (f : Handle → Handle) : Addressing → Addressing
  | flat elements => flat (elements.map f)
  | grid rows cols => grid (rows.map f) (cols.map f)

def handles : Addressing → List Handle
  | flat elements => elements.handles
  | grid rows cols => rows.handles ++ cols.handles

theorem toOption_classify_map {range : List Handle}
    (hc : ∀ h ∈ range, t'.content? (f h) = (t.content? h).map (.map f))
    (hs : ∀ h ∈ range, ∀ r, t.range? h = some r →
      ∀ k ∈ r.step?.toList, t'.isOne? (f k) = t.isOne? k) :
    (classify t' (range.map f)).toOption = (classify t range).toOption.map (.map f) := by
  have single (h : Handle) (hm : h ∈ range) :=
    Extent.toOption_classify_map (hc h hm) (hs h hm)
  match range with
  | [] => simp [classify]
  | [elements] =>
      simp only [List.map_cons, List.map_nil, classify, Outcome.toOption_bind, single elements (by simp)]
      cases (Extent.classify t elements).toOption <;> rfl
  | [rows, cols] =>
      simp only [List.map_cons, List.map_nil, classify, Outcome.toOption_bind,
        single rows (by simp), single cols (by simp)]
      cases (Extent.classify t rows).toOption <;> cases (Extent.classify t cols).toOption <;> rfl
  | _ :: _ :: _ :: _ => simp [classify]

theorem toOption_resolve_map (rows cols : Nat) (value value' : Handle → Outcome Int64)
    (a : Addressing) (h : ∀ k ∈ a.handles, (value' (f k)).toOption = (value k).toOption) :
    ((a.map f).resolve rows cols value').toOption = (a.resolve rows cols value).toOption := by
  cases a with
  | flat elements =>
      simp [map, resolve, Extent.toOption_resolve_map f (rows * cols) value value' elements h]
  | grid r c =>
      have hr := Extent.toOption_resolve_map f rows value value' r
        fun k hk => h k (List.mem_append_left _ hk)
      have hc := Extent.toOption_resolve_map f cols value value' c
        fun k hk => h k (List.mem_append_right _ hk)
      simp [map, resolve, hr, hc]

theorem handles_of_classify {range : List Handle} {a : Addressing}
    (ha : (classify t range).toOption = some a) :
    ∀ k ∈ a.handles, k ∈ range.flatMap t.through := by
  match range with
  | [] => simp [classify] at ha
  | [elements] =>
      simp only [classify, Outcome.toOption_bind, Option.bind_eq_some_iff] at ha
      obtain ⟨e, he, ha⟩ := ha
      obtain rfl : flat e = a := by simpa using ha
      simpa [handles] using Extent.handles_of_classify he
  | [rows, cols] =>
      simp only [classify, Outcome.toOption_bind, Option.bind_eq_some_iff] at ha
      obtain ⟨r, hr, c, hc, ha⟩ := ha
      obtain rfl : grid r c = a := by simpa using ha
      intro k hk
      simp only [handles, List.mem_append] at hk
      simp only [List.flatMap_cons, List.flatMap_nil, List.append_nil, List.mem_append]
      exact hk.imp (Extent.handles_of_classify hr k) (Extent.handles_of_classify hc k)
  | _ :: _ :: _ :: _ => simp [classify] at ha

end Addressing
end MatrixCode
