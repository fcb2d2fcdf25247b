import KroneckerCode.Error.Basic

/-!
# Parameters of the search for limits

The search multiplies by `growth` in each step and shifts the result by at most
`percent` percent. With a growth below two, or a shift of half or more, a step
might not lead upward, and the search would not end.
-/

namespace KroneckerCode.Limits

/-- The parameters of a search. -/
structure Config where
  /-- The greatest shift of a grown number, in percent. -/
  percent : Nat := 5
  /-- The factor of growth in each step. -/
  growth : Nat := 2
deriving DecidableEq, Repr

/-- Why parameters are unusable. -/
inductive ConfigFault where
  | growthTooSmall (growth : Nat)
  | percentTooLarge (percent : Nat)
deriving DecidableEq, Repr

/-- The text of the refusal. -/
def ConfigFault.message : ConfigFault → String
  | growthTooSmall growth => s!"growth factor must be at least 2, got {growth}"
  | percentTooLarge percent => s!"perturbation must be below 50%, got {percent}%"

namespace Config

/-- Whether every step of a search leads upward. -/
def Valid (c : Config) : Prop := 2 ≤ c.growth ∧ c.percent < 50

instance (c : Config) : Decidable c.Valid := inferInstanceAs (Decidable (_ ∧ _))

/-- Refuses parameters that are not valid. If both are wrong, the growth is reported. -/
def validate (c : Config) : Except CodecError Unit :=
  if c.growth < 2 then
    .error (.invalidConfig (ConfigFault.growthTooSmall c.growth).message)
  else if 50 ≤ c.percent then
    .error (.invalidConfig (ConfigFault.percentTooLarge c.percent).message)
  else
    .ok ()

theorem validate_eq_ok_iff (c : Config) : c.validate = .ok () ↔ c.Valid := by
  unfold validate Valid
  split
  next h => simp; omega
  next h =>
    split
    next => simp; omega
    next => simp; omega

end Config

end KroneckerCode.Limits
