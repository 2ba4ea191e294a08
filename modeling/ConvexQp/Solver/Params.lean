import ConvexQp.Decimal.Read
/-! The parameters of the three built-in solvers, their defaults, and how an environment overrides
them: a value that does not read as the parameter's type leaves the default. -/

namespace ConvexQp

/-- An environment: the value of each variable that is set. -/
abbrev Environment := String → Option String

/-- A count of at most `bits` bits: an optional plus sign and decimal digits, within range. -/
def readCount? (bits : Nat) (s : String) : Option Nat :=
  (Decimal.readNat? s).filter (· < Nat.pow 2 bits)

/-- The value of a variable read by `read`, or `fallback` when it is unset or does not read. -/
def Environment.read {α : Type} (env : Environment) (name : String) (read : String → Option α)
    (fallback : α) : α :=
  ((env name).bind read).getD fallback

/-- Parameters of the interior-point solver. -/
structure ClarabelParams where
  /-- The most iterations, a 32-bit count. -/
  maxIter : Nat := 200
  /-- The absolute tolerance on the duality gap. -/
  tolGapAbs : Float := 1e-8
  /-- The relative tolerance on the duality gap. -/
  tolGapRel : Float := 1e-8
  /-- The tolerance on feasibility. -/
  tolFeas : Float := 1e-8

/-- The defaults, overridden by `CLARABEL_MAX_ITER`, `CLARABEL_TOL_GAP_ABS`,
`CLARABEL_TOL_GAP_REL` and `CLARABEL_TOL_FEAS`. -/
def ClarabelParams.ofEnvironment (env : Environment) : ClarabelParams :=
  let d : ClarabelParams := {}
  { maxIter := env.read "CLARABEL_MAX_ITER" (readCount? 32) d.maxIter
    tolGapAbs := env.read "CLARABEL_TOL_GAP_ABS" Decimal.readFloat? d.tolGapAbs
    tolGapRel := env.read "CLARABEL_TOL_GAP_REL" Decimal.readFloat? d.tolGapRel
    tolFeas := env.read "CLARABEL_TOL_FEAS" Decimal.readFloat? d.tolFeas }

/-- Parameters of the dual active-set solver. -/
structure QuadprogParams where
  /-- The shift added to the diagonal of `P`, which must then be positive definite. -/
  reg : Float := 0.0

/-- The defaults, overridden by `QUADPROG_REG`. -/
def QuadprogParams.ofEnvironment (env : Environment) : QuadprogParams :=
  let d : QuadprogParams := {}
  { reg := env.read "QUADPROG_REG" Decimal.readFloat? d.reg }

/-- Parameters of the first-order solver. -/
structure TotsuParams where
  /-- The most iterations, a 64-bit count; `none` for no limit. -/
  maxIter : Option Nat := some 1000000
  /-- The accuracy at which it stops. -/
  epsAcc : Float := 1e-6
  /-- The accuracy at which infeasibility is declared. -/
  epsInf : Float := 1e-6
  /-- The magnitude below which a value counts as zero. -/
  epsZero : Float := 1e-12
  /-- Iterations between progress lines, a 64-bit count. -/
  logPeriod : Nat := 10000

/-- The defaults, overridden by `TOTSU_MAX_ITER` (which then sets a limit), `TOTSU_EPS_ACC`,
`TOTSU_EPS_INF`, `TOTSU_EPS_ZERO` and `TOTSU_LOG_PERIOD`. -/
def TotsuParams.ofEnvironment (env : Environment) : TotsuParams :=
  let d : TotsuParams := {}
  { maxIter := env.read "TOTSU_MAX_ITER" (fun s => (readCount? 64 s).map some) d.maxIter
    epsAcc := env.read "TOTSU_EPS_ACC" Decimal.readFloat? d.epsAcc
    epsInf := env.read "TOTSU_EPS_INF" Decimal.readFloat? d.epsInf
    epsZero := env.read "TOTSU_EPS_ZERO" Decimal.readFloat? d.epsZero
    logPeriod := env.read "TOTSU_LOG_PERIOD" (readCount? 64) d.logPeriod }

end ConvexQp
