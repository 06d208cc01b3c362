import SuperVoice.Lib.PosixPath
import Mathlib.Logic.Function.Basic

/-! The environment of a process, as the C library reads and sets it. -/
namespace Environment
open PosixPath (cString)

/-- The values of the variables that are set. -/
abbrev Variables := Bytes → Option Bytes

def getenv (env : Variables) (name : Bytes) : Option Bytes := env (cString name)

def equals : UInt8 := 61

/-- `setenv`, which overwrites; it refuses a name that is empty or holds `=`. -/
def setenv (env : Variables) (name value : Bytes) : Variables :=
  if cString name = [] ∨ equals ∈ cString name then env
  else Function.update env (cString name) (some (cString value))

/-- An environment in which one variable is set. -/
def only (name value : Bytes) : Variables := fun other => if other = name then some value else none

end Environment
