import Iuna.Library.QuadraticForms

/-!
# Reduction of forms

The reducer of `limb_arithmetic.rs` on integers: the layer above `FormLimbs.reduceWithScratch`,
which has the numbers in limbs and the fault of their division.  The scratch numbers are written out
where the source keeps them.
-/

namespace Iuna

namespace Vdf

/-- `LimbForm`. -/
abbrev LimbForm := BinaryForm

/-- `finish_if_reduced`: no form where it answers `false`, else the form it leaves. -/
def finishIfReduced (form : LimbForm) : Option LimbForm :=
  if |form.a| < |form.b| ∨ |form.c| < |form.b| then none
  else if form.a > form.c then some { a := form.c, b := -form.b, c := form.a }
  else if form.a = form.c ∧ form.b < 0 then some { form with b := -form.b }
  else some form

/-- `reduce_once`. -/
def reduceOnce (form : LimbForm) : LimbForm :=
  let modulus := 2 * form.c
  let work0 := form.b + form.c
  if work0 = 0 ∨ (¬work0 < 0 ∧ |work0| < |modulus|) then
    { a := form.c, b := -form.b, c := form.a }
  else if work0 < 0 ∧ ¬|work0| > |modulus| then
    let work0 := 2 * form.c + form.b
    let work1 := form.c + form.b
    { a := form.c, b := -work0, c := form.a + work1 }
  else if ¬work0 < 0 ∧ |work0| < 2 * |modulus| then
    let work0 := 2 * form.c - form.b
    let work1 := form.c - form.b
    { a := form.c, b := work0, c := form.a + work1 }
  else
    let s := work0.fdiv modulus
    let work0 := form.c * s
    let work1 := work0 - form.b
    { a := form.c, b := work0 + work1, c := form.a + s * work1 }

/-- `reduce_with_scratch`, for at most `fuel` turns of its loop. -/
def reduceWithScratch : ℕ → LimbForm → Option LimbForm
  | 0, _ => none
  | fuel + 1, form =>
    match finishIfReduced form with
    | some reduced => some reduced
    | none => reduceWithScratch fuel (reduceOnce form)

end Vdf

end Iuna
