/-
  GeometricAlgebra.Config.Json

  Configurations as JSON documents: a record of the name, the basis vector names, the metric
  and the basis blades, of which the last two may be absent or null.
-/

import GeometricAlgebra.Config
import GeometricAlgebra.Json.Reader
import GeometricAlgebra.Json.Writer

namespace GeometricAlgebra.Config

open Json (Value)

variable {α : Type} [Numeral α]

/-- The fields of a configuration document. -/
def fieldNames : List String := ["name", "basis_vectors", "metric", "basis_blades"]

/-- The configuration that a JSON value describes, before it is validated. -/
def ofValue? (v : Value) : Option (Config α) := do
  match ← v.record? fieldNames with
  | [some name, some vectors, metric, blades] =>
    return {
      name := ← name.text?
      vectors := ← vectors.list? Value.text?
      metric := ← Value.optional? (Value.list? Value.scalar?) metric
      blades := ← Value.optional? (Value.list? (Value.list? Value.text?)) blades }
  | _ => none

/-- The valid configuration that a JSON text describes. -/
def ofJson (text : String) : Except Error (Config α) := do
  match (Json.read? text).bind ofValue? with
  | none => throw (.config .algebraDocument)
  | some c =>
    c.validate
    return c

/-- The valid configuration in the bytes of a document; `none` stands for a document that
    cannot be opened. -/
def ofDocument (bytes : Option ByteArray) : Except Error (Config α) :=
  match bytes.bind String.fromUTF8? with
  | none => .error (.config .unreadable)
  | some text => ofJson text

/-- The configuration as a JSON value.  Absent fields are null. -/
def toValue (c : Config α) : Value :=
  .record [
    ("name", .ofText c.name),
    ("basis_vectors", .array (c.vectors.map .ofText)),
    ("metric", (c.metric.map fun m => Value.array (m.map .ofScalar)).getD .null),
    ("basis_blades",
      (c.blades.map fun bs => Value.array (bs.map fun b => .array (b.map .ofText))).getD .null)]

/-- The configuration as JSON text. -/
def toJson (c : Config α) : String := c.toValue.pretty

end GeometricAlgebra.Config
