/-
  GeometricAlgebra.Proofs.ConfigJson

  Descriptions of algebras as documents.  A description that passes validation is written and read
  back: unchanged if all entries of its metric are finite, as a refused document if one is not.

    * `Json.Rereads`: scalars that are found again from their shortest decimal.
    * `ofValue?_toValue`, `ofValue?_toValue_eq_none`: what the value of a description describes.
    * `ofJson_toJson_of_validate`: what the text of a valid description describes.
-/

import GeometricAlgebra.Config.Json
import GeometricAlgebra.Binary64
import GeometricAlgebra.Proofs.Json.Records

namespace GeometricAlgebra

open Json (Value)

variable {α : Type} [Numeral α]

/-- The scalar's shortest decimal, written as a number, denotes the scalar again.  The reader scales
    the digits by a power of ten in the scalars' own arithmetic, so this is a property of a scalar
    and not of a decimal. -/
def Json.Rereads (x : α) : Prop :=
  (Json.Number.ofDecimal (Numeral.shortest x)).toScalar? = some x

-- an odd significand above `2 ^ 53` is rounded before it is divided
example : (Json.Number.ofDecimal (Numeral.shortest 1.8708286933869707)).toScalar? ≠
    some (1.8708286933869707 : Float) := by decide +kernel

theorem Json.scalar?_ofScalar {x : α} (hfinite : Numeral.isFinite x = true) (hx : Rereads x) :
    (Value.ofScalar x).scalar? = some x := by
  rw [Value.ofScalar, if_pos hfinite]
  exact hx

/-- A scalar that is not finite is written as null, which is no scalar. -/
theorem Json.scalar?_ofScalar_eq_none {x : α} (hx : Numeral.isFinite x ≠ true) :
    (Value.ofScalar x).scalar? (α := α) = none := by
  rw [Value.ofScalar, if_neg hx]
  rfl

namespace Config

variable {c : Config α}

/-! ## Values -/

/-- The fields of a description as values, in the order of `fieldNames`. -/
theorem record?_toValue (c : Config α) : c.toValue.record? fieldNames = some
    [some (.ofText c.name), some (.array (c.vectors.map .ofText)),
      some ((c.metric.map fun m => Value.array (m.map .ofScalar)).getD .null),
      some ((c.blades.map fun bs => Value.array (bs.map fun b => .array (b.map .ofText))).getD
        .null)] :=
  Value.record?_record (show fieldNames.Nodup by decide)

theorem text?_ofText (s : String) : (Value.ofText s).text? = some s := rfl

theorem list?_texts (names : List String) :
    (Value.array (names.map .ofText)).list? Value.text? = some names :=
  Value.list?_array_map fun s _ => text?_ofText s

/-- The blade lists are read back, whatever texts stand in them. -/
theorem optional?_blades (blades : Option (List (List String))) :
    Value.optional? (Value.list? (Value.list? Value.text?))
      (some ((blades.map fun bs => Value.array (bs.map fun b => .array (b.map .ofText))).getD
        .null)) = some blades :=
  Value.optional?_write (fun _ => nofun) fun _ _ =>
    Value.list?_array_map fun b _ => list?_texts b

/-- The value of a description describes it, if the entries of the metric are found again. -/
theorem ofValue?_toValue
    (hmetric : ∀ m ∈ c.metric, ∀ x ∈ m, Numeral.isFinite x = true ∧ Json.Rereads x) :
    ofValue? c.toValue = some c := by
  have hscalars : Value.optional? (Value.list? Value.scalar?)
      (some ((c.metric.map fun m => Value.array (m.map .ofScalar)).getD .null)) =
      some c.metric :=
    Value.optional?_write (fun _ => nofun) fun m hm =>
      Value.list?_array_map fun x hx =>
        Json.scalar?_ofScalar (hmetric m hm x hx).1 (hmetric m hm x hx).2
  simp only [ofValue?, record?_toValue, text?_ofText, list?_texts, hscalars, optional?_blades,
    Option.bind_eq_bind, Option.bind_some, Option.pure_def]

/-- The value of a description with an entry that is not finite describes nothing. -/
theorem ofValue?_toValue_eq_none {m : List α} (hm : c.metric = some m) {x : α} (hx : x ∈ m)
    (hfinite : Numeral.isFinite x ≠ true) : ofValue? (α := α) c.toValue = none := by
  have hscalars : Value.optional? (Value.list? (Value.scalar? (α := α)))
      (some ((c.metric.map fun m => Value.array (m.map .ofScalar)).getD .null)) = none := by
    rw [hm, Option.map_some, Option.getD_some]
    show ((Value.array (m.map .ofScalar)).list? Value.scalar?).map some = none
    rw [Value.list?_array_eq_none (List.mem_map_of_mem hx)
      (Json.scalar?_ofScalar_eq_none hfinite), Option.map_none]
  simp only [ofValue?, record?_toValue, text?_ofText, list?_texts, hscalars,
    Option.bind_eq_bind, Option.bind_some, Option.bind_none]

/-! ## Texts -/

/-- A description is written as a valid value. -/
theorem valid_toValue (c : Config α) : c.toValue.Valid := by
  refine Value.valid_record ?_
  simp only [List.forall_mem_cons, List.not_mem_nil, false_implies, implies_true, and_true]
  exact ⟨Value.valid_ofText _, Value.valid_array_map Value.valid_ofText _,
    Value.valid_optional (Value.valid_array_map Value.valid_ofScalar) _,
    Value.valid_optional (Value.valid_array_map (Value.valid_array_map Value.valid_ofText)) _⟩

theorem read?_toJson (c : Config α) : Json.read? c.toJson = some c.toValue :=
  Json.read?_pretty (valid_toValue c)

/-- A valid description is read back from its text if the entries of its metric are finite and are
    found again from their decimals.  With an entry that is not finite there is a text too, but it
    is refused. -/
theorem ofJson_toJson_of_validate (hvalid : c.validate = .ok ()) :
    ((∀ m ∈ c.metric, ∀ x ∈ m, Numeral.isFinite x = true) →
        (∀ m ∈ c.metric, ∀ x ∈ m, Json.Rereads x) → ofJson c.toJson = .ok c) ∧
      ((∃ m ∈ c.metric, ∃ x ∈ m, Numeral.isFinite x = false) →
        ofJson (α := α) c.toJson = .error (.config .algebraDocument)) := by
  constructor
  · intro hfinite hrereads
    have hvalue : ofValue? c.toValue = some c :=
      ofValue?_toValue fun m hm x hx => ⟨hfinite m hm x hx, hrereads m hm x hx⟩
    simp only [ofJson, read?_toJson, Option.bind_some, hvalue, hvalid]
    rfl
  · rintro ⟨m, hm, x, hx, hfinite⟩
    have hvalue : ofValue? (α := α) c.toValue = none :=
      ofValue?_toValue_eq_none hm hx (by simp [hfinite])
    simp only [ofJson, read?_toJson, Option.bind_some, hvalue]
    rfl

/-- A name and blade lists with quotes, a backslash, a control character and characters of several
    bytes, and a metric of both signs; with an infinite entry in place of one of them, the text is
    refused. -/
theorem ofJson_toJson_escapes :
    let c (m : List Float) : Config Float := {
      name := "\"q\" \\ \x01 \n é ∧"
      vectors := ["a", "b"]
      metric := some m
      blades := some [[], ["é\t"], ["", "\""]] }
    (c [1, -1]).validate = .ok () ∧ ofJson (c [1, -1]).toJson = .ok (c [1, -1]) ∧
      (c [1, 1 / 0]).validate = .ok () ∧
      ofJson (α := Float) (c [1, 1 / 0]).toJson = .error (.config .algebraDocument) := by
  intro c
  have hvalid : (c [1, -1]).validate = .ok () := by decide +kernel
  have hinfinite : (c [1, 1 / 0]).validate = .ok () := by decide +kernel
  have hfinite : ∀ x ∈ [1, (-1 : Float)], Numeral.isFinite x = true := by decide +kernel
  have hrereads : ∀ x ∈ [1, (-1 : Float)],
      (Json.Number.ofDecimal (Numeral.shortest x)).toScalar? = some x := by decide +kernel
  refine ⟨hvalid, ?_, hinfinite, ?_⟩
  · refine (ofJson_toJson_of_validate hvalid).1 ?_ ?_
    · rintro _ ⟨⟩
      exact hfinite
    · rintro _ ⟨⟩
      exact hrereads
  · exact (ofJson_toJson_of_validate hinfinite).2
      ⟨_, rfl, 1 / 0, by simp, by decide +kernel⟩

end Config

end GeometricAlgebra
