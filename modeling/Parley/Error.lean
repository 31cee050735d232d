import Parley.Call.Slot
import Parley.Json.Basic
import Parley.Path
import Parley.Value.Cast

/-!
# Errors

One constructor for each cause. Causes fall into families, and the text of an error opens with the
heading of its family.

* `Error` : the causes.
* `Error.family`, `Family.heading` : the ten families.
* `Error.message` : the text of an error.
-/

namespace Parley

/-- Why an operation fails. -/
inductive Error where
  | mismatch (cause : TypeMismatch)
  | negativeIndex (index : Int)
  | outOfBounds (index : Int) (length : Nat)
  | noField (name : String)
  | wrongContainer (step : Step) (value : Value)
  | notArray (type : Ty)
  | notRecord (type : Ty) (field : String)
  | undeclaredField (record field : String)
  | mixedSteps (path : Path) (type : Ty)
  | inPath (path : Path) (cause : Error)
  | arrayExpected (value : Value)
  | arrayTooLong (length : Nat)
  | zeroUnit (s : String)
  | argumentNotGiven (index given : Nat)
  | parameterNotTaken (index taken : Nat)
  | arity (function : String) (declared taken : Nat)
  | unknownParameter (mapping function : String) (index : Nat)
  | noParameterIndex (path : Path)
  | unknownMapping (id : String)
  | noParameterSelected (id : String) (path : Path)
  | duplicateEntry (key : String) (number : Int)
  | unknownDocument (uri : String)
  | unknownType (name : String)
  | nestedTooDeep (name : String)
  | unknownFunction (name : String)
  | wrongHandler (event given : String)
  | unknownEvent (event : String)
  | alreadyResolved (id : Nat)
  | defaultHandler (slot : Slot)
  | argumentCount (function : String) (expected given : Nat)
  | handlerFailed (reason : String)
  | idsExhausted
  | connectionDropped
  | emptyMessage
  | unknownMessage (kind : Json)
  | badCallId (found : Option Json)
  | noStatus (id : Nat)
  | unknownCall (id : Nat)
  | noMethodName (id : Nat)
  | unregistered (function : String)
  | unhandledException (id : Nat) (exception : String)
  | endOfData (offset needed : Nat)
  | malformedJson

/-- Causes that share a heading. -/
inductive Family where
  | document
  | unknownFunction
  | mapping
  | incompatibleType
  | internal
  | argument
  | connection
  | unhandledException
  | endOfData
  | json
  deriving DecidableEq, Repr

/-- The text before the details of an error. -/
def Family.heading : Family → String
  | document => "IDL parser error: "
  | unknownFunction => "unknown IDL function: "
  | mapping => "unrecognized type mapping: "
  | incompatibleType => "incompatible native type: "
  | internal => "(BUG in rpcwire) "
  | argument => "invalid argument: "
  | connection => "connection error: "
  | unhandledException => "unhandled exception for call "
  | endOfData => "unexpected end of data: "
  | json => "malformed JSON message"

/-- The number of nested levels a declared type may have. -/
def maxTypeDepth : Nat := 64

namespace Error

/-- The family of a cause. -/
def family : Error → Family
  | mismatch _ | negativeIndex _ | outOfBounds .. | noField _ => .incompatibleType
  | wrongContainer .. => .incompatibleType
  | notArray _ | notRecord .. | undeclaredField .. | mixedSteps .. => .incompatibleType
  | inPath _ cause => cause.family
  | arrayExpected _ | arrayTooLong _ | zeroUnit _ => .incompatibleType
  | argumentNotGiven .. | parameterNotTaken .. | arity .. | unknownParameter .. => .incompatibleType
  | noParameterIndex _ => .internal
  | unknownMapping _ | noParameterSelected .. | duplicateEntry .. => .mapping
  | unknownDocument _ | unknownType _ | nestedTooDeep _ => .document
  | unknownFunction _ => .unknownFunction
  | wrongHandler .. | unknownEvent _ | alreadyResolved _ | defaultHandler _ => .argument
  | argumentCount .. | handlerFailed _ => .argument
  | idsExhausted | connectionDropped | emptyMessage | unknownMessage _ => .connection
  | badCallId _ | noStatus _ | unknownCall _ | noMethodName _ | unregistered _ => .connection
  | unhandledException .. => .unhandledException
  | endOfData .. => .endOfData
  | malformedJson => .json

/-- What an error says after its heading. -/
def detail : Error → String
  | mismatch cause => cause.message
  | negativeIndex i => "negative index " ++ toString i
  | outOfBounds i n => "index " ++ toString i ++ " out of bounds for length " ++ toString n
  | noField n => "no field named " ++ n
  | wrongContainer step v => "cannot apply " ++ Path.text [step] ++ " to " ++ v.text
  | notArray t => t.text ++ " is not an array type"
  | notRecord t n => t.text ++ " has no fields, cannot access ." ++ n
  | undeclaredField r n => r ++ " has no field named " ++ n
  | mixedSteps p t =>
    "path " ++ Path.text p ++ " addresses " ++ t.text ++ " both by index and by name"
  | inPath p cause => cause.detail ++ " (in path " ++ Path.text p ++ ")"
  | arrayExpected v => "expected an array, found " ++ v.text
  | arrayTooLong n => "array of " ++ toString n ++ " elements does not fit the wire count"
  | zeroUnit s => quoted s ++ " contains a zero unit and cannot be a ZCString"
  | argumentNotGiven i n =>
    "encoding addresses argument " ++ toString i ++ " but only " ++ toString n ++ " were given"
  | parameterNotTaken i n =>
    "encoding addresses argument " ++ toString i ++ " but the function takes " ++ toString n
  | arity f declared taken =>
    f ++ " declares " ++ toString declared ++ " parameters, native function takes "
      ++ toString taken
  | unknownParameter m f i =>
    "type mapping " ++ m ++ " addresses parameter " ++ toString i ++ " of " ++ f
  | noParameterIndex p =>
    "argument encoding entry " ++ Path.text p ++ " does not start with a parameter index"
  | unknownMapping id => id
  | noParameterSelected id p =>
    id ++ ": argument entry " ++ Path.text p ++ " does not select a parameter"
  | duplicateEntry key n => "duplicate enum entry " ++ quoted key ++ " = " ++ toString n
  | unknownDocument uri => "cannot load IDL from " ++ uri
  | unknownType n => "unknown type " ++ n
  | nestedTooDeep n => "type " ++ n ++ " nests deeper than " ++ toString maxTypeDepth ++ " levels"
  | unknownFunction n => n
  | wrongHandler event given =>
    "invalid handler type for " ++ event ++ " event: expected a " ++ event ++ " handler, got a "
      ++ given ++ " handler"
  | unknownEvent event => "invalid event name: " ++ event
  | alreadyResolved id => "call " ++ toString id ++ " is already resolved"
  | defaultHandler slot => "invalid default handler type: " ++ slot.text
  | argumentCount f expected given =>
    "incorrect number of arguments for method " ++ f ++ ": expected " ++ toString expected
      ++ ", got " ++ toString given
  | handlerFailed reason => reason
  | idsExhausted => "call ids exhausted"
  | connectionDropped => "connection was dropped"
  | emptyMessage => "empty message"
  | unknownMessage kind => "unknown message type: " ++ kind.text
  | badCallId none => "invalid call id: None"
  | badCallId (some j) => "invalid call id: Some(" ++ j.inspect ++ ")"
  | noStatus id => "reply to call " ++ toString id ++ " lacks a status"
  | unknownCall id => "received a response for an unrecognized call id: " ++ toString id
  | noMethodName id => "call " ++ toString id ++ " lacks a method name"
  | unregistered f => "received a call for an unregistered method: " ++ f
  | unhandledException id exception => toString id ++ ": " ++ exception
  | endOfData offset needed =>
    "needed " ++ toString needed ++ " bytes at offset " ++ toString offset
  | malformedJson => ""

/-- The text of an error. -/
def message (e : Error) : String :=
  e.family.heading ++ e.detail

end Error

end Parley
