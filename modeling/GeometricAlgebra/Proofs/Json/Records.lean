/-
  GeometricAlgebra.Proofs.Json.Records

  Written records, lists and optional fields are read back field by field.

    * `record?_record`: the named members of a record, in the order in which they are asked for.
    * `list?_array_map`: a list whose items are read back.
    * `optional?_write`: a field that may be null.
    * `valid_record`, `valid_array_map`, `valid_optional`: what is written is a valid value.
-/

import GeometricAlgebra.Proofs.Json.Roundtrip

namespace GeometricAlgebra.Json.Value

variable {β γ δ : Type}

/-! ## Lists -/

section Lists

variable {read : γ → Option δ}

/-- Items that are read one by one are read together. -/
theorem mapM_map_eq_some_map {write : β → γ} {result : β → δ} {xs : List β}
    (h : ∀ x ∈ xs, read (write x) = some (result x)) :
    (xs.map write).mapM read = some (xs.map result) := by
  induction xs with
  | nil => rfl
  | cons x xs ih =>
    obtain ⟨hx, hxs⟩ := List.forall_mem_cons.mp h
    rw [List.map_cons, List.mapM_cons, hx, ih hxs]
    rfl

/-- Items that are read back one by one are read back together. -/
theorem mapM_map_eq_some {write : β → γ} {read : γ → Option β} {xs : List β}
    (h : ∀ x ∈ xs, read (write x) = some x) : (xs.map write).mapM read = some xs := by
  rw [mapM_map_eq_some_map h, List.map_id']

/-- One item that cannot be read spoils the list. -/
theorem mapM_eq_none {y : γ} {ys : List γ} (hy : y ∈ ys) (hread : read y = none) :
    ys.mapM read = none := by
  induction ys with
  | nil => cases hy
  | cons z zs ih =>
    rw [List.mapM_cons]
    rcases List.mem_cons.mp hy with rfl | hmem
    · rw [hread]
      rfl
    · rw [ih hmem]
      cases read z <;> rfl

end Lists

section Fields

variable {write : β → Value} {read : Value → Option β}

theorem list?_array_map {xs : List β} (h : ∀ x ∈ xs, read (write x) = some x) :
    (array (xs.map write)).list? read = some xs :=
  mapM_map_eq_some h

theorem list?_array_eq_none {v : Value} {vs : List Value} (hv : v ∈ vs) (hread : read v = none) :
    (array vs).list? read = none :=
  mapM_eq_none hv hread

/-- What is not null is read as a field that is present. -/
theorem optional?_some {v : Value} (hv : v ≠ null) :
    optional? read (some v) = (read v).map some := by
  cases v <;> first | rfl | exact absurd rfl hv

/-- A field that may be absent is read back, if what is present is not written as null. -/
theorem optional?_write {o : Option β} (hnull : ∀ x, write x ≠ null)
    (h : ∀ x, o = some x → read (write x) = some x) :
    optional? read (some ((o.map write).getD null)) = some o := by
  cases o with
  | none => rfl
  | some x =>
    rw [Option.map_some, Option.getD_some, optional?_some (hnull x), h x rfl, Option.map_some]

end Fields

/-! ## Records -/

/-- The only member with its name. -/
theorem member?_eq_some {members : List (String × Value)} (hnodup : (members.map Prod.fst).Nodup)
    {m : String × Value} (hm : m ∈ members) : member? m.1 members = some (some m.2) := by
  have hfilter : members.filter (fun u => u.1 == m.1) = [m] := by
    induction members with
    | nil => cases hm
    | cons u us ih =>
      obtain ⟨hu, hus⟩ := List.nodup_cons.mp hnodup
      rcases List.mem_cons.mp hm with rfl | hmem
      · have hnone : us.filter (fun w => w.1 == m.1) = [] := by
          rw [List.filter_eq_nil_iff]
          intro w hw hname
          exact hu (beq_iff_eq.mp hname ▸ List.mem_map_of_mem hw)
        rw [List.filter_cons_of_pos (by simp), hnone]
      · have hne : u.1 ≠ m.1 := fun heq => hu (heq ▸ List.mem_map_of_mem hmem)
        rw [List.filter_cons_of_neg (by simpa using hne), ih hus hmem]
  rw [member?, hfilter]

/-- The members of a record, asked for by their names. -/
theorem record?_record {members : List (String × Value)} (hnodup : (members.map Prod.fst).Nodup) :
    (record members).record? (members.map Prod.fst) = some (members.map fun m => some m.2) := by
  have hnamed : (members.map fun m => (some m.1, m.2)).mapM
      (fun m : Text × Value => m.1.map (·, m.2)) = some members :=
    mapM_map_eq_some fun _ _ => rfl
  rw [record, record?, hnamed]
  exact mapM_map_eq_some_map fun m hm => member?_eq_some hnodup hm

/-! ## Validity -/

theorem valid_ofText (s : String) : (ofText s).Valid := .string _

theorem valid_ofScalar {α : Type} [Numeral α] (x : α) : (ofScalar x).Valid := by
  rw [ofScalar]
  split
  · exact .number (Number.valid_ofDecimal _)
  · exact .null

theorem valid_array_map {write : β → Value} (h : ∀ x, (write x).Valid) (xs : List β) :
    (array (xs.map write)).Valid :=
  .array (List.forall_mem_map.mpr fun x _ => h x)

theorem valid_optional {write : β → Value} (h : ∀ x, (write x).Valid) (o : Option β) :
    ((o.map write).getD null).Valid := by
  cases o with
  | none => exact .null
  | some x => exact h x

theorem valid_record {members : List (String × Value)} (h : ∀ m ∈ members, m.2.Valid) :
    (record members).Valid :=
  .object (List.forall_mem_map.mpr h)

end GeometricAlgebra.Json.Value
