import Mathlib.Data.Rat.Floor
import SuperVoice.Lib.Bytes

/-! JSON values as jsoncpp holds them, and the usage record read from one. -/
namespace SuperVoice.Providers

inductive Json where
  | null
  | bool (value : Bool)
  | int (value : Int64)
  | uint (value : UInt64)
  | real (value : ℚ)
  | string (value : Bytes)
  | array (elements : List Json)
  | object (members : List (Bytes × Json))

inductive JsonError where
  /-- An accessor is used on a value of the wrong type. -/
  | logicError
  /-- The reader meets a text that nests deeper than its stack limit. -/
  | runtimeError
  deriving DecidableEq

namespace Json

mutual

/-- How many values are open at once while the text of this one is read. -/
def depth : Json → Nat
  | .array elements => depthElements elements + 1
  | .object members => depthMembers members + 1
  | _ => 1

def depthElements : List Json → Nat
  | [] => 0
  | value :: rest => max value.depth (depthElements rest)

def depthMembers : List (Bytes × Json) → Nat
  | [] => 0
  | (_, value) :: rest => max value.depth (depthMembers rest)

end

/-- The default of the reader, which no caller changes. -/
def stackLimit : Nat := 1000

/-- What the reader makes of a text of this value. -/
def reading (payload : Json) : Except JsonError (Except Bytes Json) :=
  if payload.depth ≤ stackLimit then .ok (.ok payload) else .error .runtimeError

def isObject : Json → Bool
  | .object _ => true
  | _ => false

/-- The member `key`; `null` has no members, and other values that are no objects throw. -/
def find (key : Bytes) : Json → Except JsonError (Option Json)
  | .object members => .ok ((members.find? fun m => m.1 == key).map Prod.snd)
  | .null => .ok none
  | _ => .error .logicError

def isMember (key : Bytes) (value : Json) : Except JsonError Bool :=
  (value.find key).map Option.isSome

/-- `operator[]` on a constant value: an absent member reads as `null`. -/
def member (key : Bytes) (value : Json) : Except JsonError Json :=
  (value.find key).map fun m => m.getD .null

def asUInt64 : Json → Except JsonError UInt64
  | .null => .ok 0
  | .bool value => .ok (if value then 1 else 0)
  | .int value => if 0 ≤ value then .ok value.toUInt64 else .error .logicError
  | .uint value => .ok value
  | .real value =>
    if 0 ≤ value ∧ value < 2 ^ 64 then .ok (UInt64.ofNat ⌊value⌋.toNat) else .error .logicError
  | _ => .error .logicError

end Json

structure Usage where
  promptTokens : UInt64 := 0
  completionTokens : UInt64 := 0
  totalTokens : UInt64 := 0
  audioTokens : UInt64 := 0
  cachedTokens : UInt64 := 0
  note : Bytes := []
  deriving DecidableEq

/-- A token count of the usage member, or the fallback where it is absent. -/
def tokens (rawUsage : Json) (key : String) (fallback : UInt64) : Except JsonError UInt64 := do
  if ← rawUsage.isMember (Bytes.ascii key) then
    (← rawUsage.member (Bytes.ascii key)).asUInt64
  else
    return fallback

def noUsage : Usage := { note := Bytes.ascii "provider_did_not_return_usage" }

def extractUsage (payload : Json) : Except JsonError Usage := do
  if !payload.isObject then
    return noUsage
  if !(← payload.isMember (Bytes.ascii "usage")) then
    return noUsage
  let rawUsage ← payload.member (Bytes.ascii "usage")
  let promptTokens ← tokens rawUsage "prompt_tokens" 0
  let completionTokens ← tokens rawUsage "completion_tokens" 0
  let totalTokens ← tokens rawUsage "total_tokens" (promptTokens + completionTokens)
  let audioTokens ← tokens rawUsage "audio_tokens" 0
  let cachedTokens ← tokens rawUsage "cached_tokens" 0
  return { promptTokens, completionTokens, totalTokens, audioTokens, cachedTokens }

/-- The usage member, where there is one, is read without an exception. -/
def UsageWellFormed (payload : Json) : Prop := (extractUsage payload).isOk = true

end SuperVoice.Providers
