/-!
Why a property or an action can not be part of a class.
-/

namespace EmberClasses

inductive Unsupported where
  | spread
  | key
  | accessor
  | actionsValue
  | noBody
  | value
  | actionSpread
  | actionKey
  | actionNoBody
  | actionValue
  deriving DecidableEq, Inhabited

def Unsupported.message : Unsupported → String
  | spread => "spread properties can not be transformed"
  | key => "property key must be a plain identifier"
  | accessor => "getters and setters in the object literal can not be transformed"
  | actionsValue => "actions must be an object literal"
  | noBody => "function has no body"
  | value => "value expression can not be transformed"
  | actionSpread => "spread in actions can not be transformed"
  | actionKey => "action name must be a plain identifier"
  | actionNoBody => "action has no body"
  | actionValue => "action must be a method, function or identifier"

end EmberClasses
