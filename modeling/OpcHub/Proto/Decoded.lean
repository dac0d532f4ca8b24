import OpcHub.Proto.RoundTrip

/-! What a message decodes to. An array comes out as its elements did, all of one type or a
variant each, and keeps the dimensions it was sent with. Those are checked against its length
by a product the machine cuts to 64 bits. -/

namespace OpcHub.Proto

open List Variant Value

mutual

/-- The arrays of a message, those inside others too: their values and their dimensions. -/
def Value.arrays : Value → List (List Value × List UInt32)
  | .array values dimensions _ _ => (values, dimensions) :: Value.allArrays values
  | _ => []

def Value.allArrays : List Value → List (List Value × List UInt32)
  | [] => []
  | v :: vs => Value.arrays v ++ Value.allArrays vs

end

/-- Array by array, every value of the message is one element of the variant, and a null array had none. -/
inductive Decoded : Value → Variant → Prop
  | leaf {v : Value} {y : Variant} (hv : v.arrays = []) (hy : y = .empty ∨ y.isScalar = true) : Decoded v y
  | array {values : List Value} {dimensions : List UInt32} {type : ℕ} {t : DataType} {data : List t.kind.Data}
      (h : List.Forall₂ Decoded values (data.map (.scalar t))) :
      Decoded (.array values dimensions type false) (.array t (some data) dimensions)
  | variants {values : List Value} {dimensions : List UInt32} {type : ℕ} {elements : List Variant}
      (h : List.Forall₂ Decoded values elements) :
      Decoded (.array values dimensions type false) (.variants elements dimensions)
  | null (dimensions : List UInt32) (type : ℕ) (t : DataType) :
      Decoded (.array [] dimensions type true) (.array t none dimensions)
  | nullVariants (dimensions : List UInt32) (type : ℕ) : Decoded (.array [] dimensions type true) (.nullVariants dimensions)

/-- A message's lists are counted by a signed 32-bit number. -/
def Value.Sendable (v : Value) : Prop := ∀ a ∈ v.arrays, a.1.length < 2 ^ 31

/-- The dimensions' product is one the machine does not cut. -/
def Value.Fits (v : Value) : Prop := ∀ a ∈ v.arrays, (a.2.map UInt32.toNat).prod < 2 ^ 64

section Arrays

variable {type : Descriptor} {first : Option Descriptor} {elements : List Variant} {dimensions : List UInt32} {n : ℕ}

theorem bind_ok {ε α β : Type} {x : Except ε α} {f : α → Except ε β} {b : β} :
    x >>= f = .ok b ↔ ∃ a, x = .ok a ∧ f a = .ok b := by
  cases x <;> simp [bind, Except.bind]

theorem checkElements_ok (h : checkElements type first elements = .ok ()) :
    ∀ e ∈ elements, e.type? = first ∧ e.isScalar = true := by
  induction elements with
  | nil => exact nofun
  | cons e es ih =>
    obtain ⟨_, he, hes⟩ := bind_ok.mp h
    refine forall_mem_cons.mpr ⟨?_, ih hes⟩
    cases htype : e.type? with
    | none => simp [checkElement, htype] at he
    | some t =>
      simp only [checkElement, htype] at he
      split_ifs at he with hne hscalar
      exact ⟨not_not.mp hne, by simpa using hscalar⟩

theorem exists_scalars {t : DataType} (h : ∀ e ∈ elements, e.type? = some (.of t) ∧ e.isScalar = true) :
    ∃ data : List t.kind.Data, elements = data.map (.scalar t) := by
  induction elements with
  | nil => exact ⟨[], rfl⟩
  | cons e es ih =>
    obtain ⟨⟨htype, hscalar⟩, hes⟩ := forall_mem_cons.mp h
    obtain ⟨data, rfl⟩ := ih hes
    cases e with
    | scalar t' d =>
      cases htype
      exact ⟨d :: data, rfl⟩
    | empty | array | variants | nullVariants => cases hscalar
    | single => cases htype

theorem builtInType_ne_variant (t : DataType) : builtInType (.of t) ≠ builtInType .variant := by
  obtain ⟨kind, name, id⟩ := t
  cases kind <;> simp [builtInType, Descriptor.code, Kind.code]

theorem elementType_ok {t : DataType} (h : elementType (.of t) elements = .ok type) :
    ∃ (t' : DataType) (data : List t'.kind.Data), type = .of t' ∧ elements = data.map (.scalar t') := by
  cases elements with
  | nil => exact ⟨t, [], (Except.ok.inj h).symm, rfl⟩
  | cons e es =>
    obtain ⟨_, hcheck, h⟩ := bind_ok.mp h
    obtain ⟨found, hfound, h⟩ := bind_ok.mp h
    obtain ⟨declared, hdeclared, h⟩ := bind_ok.mp h
    split_ifs at h with hne
    obtain rfl := not_not.mp hne
    have hall := checkElements_ok hcheck
    obtain ⟨-, hscalar⟩ := hall e mem_cons_self
    cases htype : e.type? with
    | none => cases e <;> cases htype; cases hscalar
    | some first =>
      rw [htype] at hall hfound h
      cases first with
      | variant => exact absurd (hdeclared.trans hfound.symm) (builtInType_ne_variant t)
      | of t' =>
        obtain ⟨data, hdata⟩ := exists_scalars hall
        exact ⟨t', data, (Except.ok.inj h).symm, hdata⟩

theorem checkDimensions_eq_ok : checkDimensions dimensions n = .ok () ↔ dimensions = [] ∨ shape dimensions = UInt64.ofNat n := by
  rw [checkDimensions]
  split_ifs with h
  · simpa using h
  · simpa [or_iff_not_imp_left] using h

theorem toArray_ok {count type : ℕ} {isNull : Bool} {x : Except UAException (List Variant)} {y : Variant}
    (h : toArray count dimensions type isNull x = .ok y) : ∃ elements, x = .ok elements ∧
      (isNull = true → count = 0) ∧ (dimensions = [] ∨ shape dimensions = UInt64.ofNat elements.length) ∧
      (y = (if isNull then .nullVariants dimensions else .variants elements dimensions) ∨
        ∃ (t : DataType) (data : List t.kind.Data), elements = data.map (.scalar t) ∧
          y = .array t (if isNull then none else some data) dimensions) := by
  by_cases hnull : isNull = true ∧ count ≠ 0
  · rw [toArray, if_pos hnull] at h
    cases h
  by_cases hid : Kind.diagnosticInfo.code + 1 < type
  · rw [toArray, if_neg hnull, if_pos hid] at h
    cases h
  rw [toArray, if_neg hnull, if_neg hid] at h
  obtain ⟨elements, hx, h⟩ := bind_ok.mp h
  refine ⟨elements, hx, fun h' => not_not.mp fun hc => hnull ⟨h', hc⟩, ?_⟩
  generalize (if type = 0 then (elements.head?.bind type?).getD .variant
    else (Descriptor.builtIns[type - 1]?).getD .variant) = declared at h
  cases declared with
  | variant =>
    obtain ⟨type, htype, h⟩ := bind_ok.mp h
    obtain ⟨_, hdims, h⟩ := bind_ok.mp h
    cases htype
    exact ⟨checkDimensions_eq_ok.mp hdims, .inl (Except.ok.inj h).symm⟩
  | of t =>
    obtain ⟨type, htype, h⟩ := bind_ok.mp h
    obtain ⟨_, hdims, h⟩ := bind_ok.mp h
    obtain ⟨t', data, rfl, rfl⟩ := elementType_ok htype
    refine ⟨checkDimensions_eq_ok.mp hdims, .inr ⟨t', data, rfl, ?_⟩⟩
    rw [← Except.ok.inj h, setArray, filterMap_data?_scalars]

end Arrays

section Whole

variable {lib : Vendor}

theorem toVariant_leaf {v : Value} {y : Variant} (hv : v.arrays = []) (h : toVariant lib v = .ok y) :
    y = .empty ∨ y.isScalar = true := by
  cases v with
  | array => cases hv
  | notSet =>
    cases h
    exact .inl rfl
  | _ =>
    cases h
    exact .inr rfl

mutual

theorem decoded_toVariant (v : Value) {y : Variant} (h : toVariant lib v = .ok y) : Decoded v y := by
  cases v with
  | array values dimensions type isNull =>
    obtain ⟨elements, hx, hnull, -, hy⟩ := toArray_ok h
    have hall := decoded_toVariants values hx
    cases isNull with
    | true =>
      obtain rfl := length_eq_zero_iff.mp (hnull rfl)
      obtain rfl | ⟨t, data, rfl, rfl⟩ := hy
      · exact .nullVariants dimensions type
      · exact .null dimensions type t
    | false =>
      obtain rfl | ⟨t, data, rfl, rfl⟩ := hy
      · exact .variants hall
      · exact .array hall
  | _ => exact .leaf rfl (toVariant_leaf rfl h)

theorem decoded_toVariants (vs : List Value) {ys : List Variant} (h : toVariants lib vs = .ok ys) :
    List.Forall₂ Decoded vs ys := by
  cases vs with
  | nil =>
    cases h
    exact .nil
  | cons v vs =>
    obtain ⟨x, hx, h⟩ := bind_ok.mp h
    obtain ⟨xs, hxs, h⟩ := bind_ok.mp h
    cases h
    exact .cons (decoded_toVariant v hx) (decoded_toVariants vs hxs)

end

theorem Decoded.arrays_eq_nil {v : Value} {y : Variant} (h : Decoded v y) (hy : y.isScalar = true) : v.arrays = [] := by
  cases h with
  | leaf hv => exact hv
  | _ => cases hy

theorem allArrays_eq_nil {vs : List Value} {ys : List Variant} (h : List.Forall₂ Decoded vs ys)
    (hys : ∀ y ∈ ys, y.isScalar = true) : allArrays vs = [] := by
  induction h with
  | nil => rfl
  | cons hv _ ih =>
    obtain ⟨hy, hys⟩ := forall_mem_cons.mp hys
    rw [allArrays, hv.arrays_eq_nil hy, ih hys, nil_append]

/-- Dimensions that pass the check multiply to the length exactly where the machine does not cut them. -/
theorem shape_iff_fits {dimensions : List UInt32} {n : ℕ} (hn : n < 2 ^ 31)
    (h : dimensions = [] ∨ shape dimensions = UInt64.ofNat n) :
    Shape dimensions n ↔ (dimensions.map UInt32.toNat).prod < 2 ^ 64 := by
  obtain rfl | h := h
  · simp [Shape]
  rw [shape_eq] at h
  have hmod := congrArg UInt64.toNat h
  rw [UInt64.toNat_ofNat', UInt64.toNat_ofNat', Nat.mod_eq_of_lt (a := n) (by omega)] at hmod
  constructor
  · rintro (rfl | h)
    · decide
    · omega
  · exact fun hlt => .inr (by rwa [Nat.mod_eq_of_lt hlt] at hmod)

mutual

theorem shaped_iff (v : Value) {y : Variant} (h : toVariant lib v = .ok y) (hv : v.Sendable) :
    (∀ u ∈ y.parts, u.Shaped) ↔ v.Fits := by
  cases v with
  | array values dimensions type isNull =>
    obtain ⟨hlen, hall⟩ := forall_mem_cons.mp hv
    obtain ⟨elements, hx, hnull, hshape, hy⟩ := toArray_ok h
    have hdec := decoded_toVariants values hx
    have hself := shape_iff_fits (hdec.length_eq ▸ hlen) hshape
    rw [Value.Fits, arrays, forall_mem_cons, ← hself]
    obtain rfl | ⟨t, data, rfl, rfl⟩ := hy
    · rw [← shaped_iffs values hx hall]
      cases isNull with
      | true =>
        obtain rfl := length_eq_zero_iff.mp (hnull rfl)
        cases hx
        simp [parts, Variant.Shaped, allParts]
      | false => exact forall_mem_cons
    · rw [allArrays_eq_nil hdec (by simp [isScalar])]
      cases isNull with
      | true =>
        have hdata : data = [] := by simpa [length_eq_zero_iff.mp (hnull rfl)] using hdec
        simp [parts, Variant.Shaped, hdata]
      | false => simp [parts, Variant.Shaped]
  | _ =>
    cases h
    simp [parts, Variant.Shaped, Value.Fits, arrays]

theorem shaped_iffs (vs : List Value) {ys : List Variant} (h : toVariants lib vs = .ok ys)
    (hvs : ∀ a ∈ allArrays vs, a.1.length < 2 ^ 31) : (∀ u ∈ allParts ys, u.Shaped) ↔
      ∀ a ∈ allArrays vs, (a.2.map UInt32.toNat).prod < 2 ^ 64 := by
  cases vs with
  | nil =>
    cases h
    simp [allParts, allArrays]
  | cons v vs =>
    obtain ⟨x, hx, h⟩ := bind_ok.mp h
    obtain ⟨xs, hxs, h⟩ := bind_ok.mp h
    cases h
    obtain ⟨hv, hvs⟩ := forall_mem_append.mp hvs
    rw [allParts, allArrays, forall_mem_append, forall_mem_append, shaped_iffs vs hxs hvs]
    exact and_congr_left' (shaped_iff v hx hv)

end

/-- What a client sends decodes to arrays of the shape they say, element by element, exactly if no array's
dimensions multiply past 64 bits wherever the whole is accepted. -/
theorem decoded_shaped_iff (lib : Vendor) (v : Value) (hv : v.Sendable) :
    (∀ y, toVariant lib v = .ok y → Decoded v y ∧ ∀ u ∈ y.parts, u.Shaped) ↔ ∀ y, toVariant lib v = .ok y → v.Fits :=
  forall₂_congr fun _ h => ⟨fun hy => (shaped_iff v h hv).mp hy.2,
    fun hfits => ⟨decoded_toVariant v h, (shaped_iff v h hv).mpr hfits⟩⟩

/-- A library that encodes nothing. -/
def bareVendor : Vendor := ⟨fun _ _ => .error 0, fun _ => true, rfl, fun _ => ⟨0, 0⟩, fun _ => 0⟩

/-- Two numbers, sent as two rows of one. -/
theorem twoRows_decoded : ∃ y, toVariant bareVendor (.array [.int32 1, .int32 2] [2, 1] 6 false) = .ok y ∧
    Decoded (.array [.int32 1, .int32 2] [2, 1] 6 false) y ∧ ∀ u ∈ y.parts, u.Shaped :=
  ⟨_, rfl, (decoded_shaped_iff bareVendor _ (by simp [Value.Sendable, Value.arrays, Value.allArrays])).mpr
    (fun _ _ => by simp [Value.Fits, Value.arrays, Value.allArrays]) _ rfl⟩

/-- An empty Int32 array of 65536 by 65536 by 65536 by 65536. -/
def hugeEmpty : Value := .array [] [65536, 65536, 65536, 65536] 6 false

/-- The product wraps to 0, the number of its elements. -/
theorem hugeEmpty_accepted : toVariant bareVendor hugeEmpty =
      .ok (.array Kind.int32.type (some []) [65536, 65536, 65536, 65536]) ∧
    ¬ Variant.Shaped (.array Kind.int32.type (some []) [65536, 65536, 65536, 65536]) := by
  refine ⟨rfl, ?_⟩
  simp [Variant.Shaped, Shape]

end Whole

end OpcHub.Proto
