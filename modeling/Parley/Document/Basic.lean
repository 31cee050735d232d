import Parley.Error

/-!
# Interface documents

A document declares types and services. Documents that are loaded one after the other are merged:
of two declarations of a name the later stands, a service being replaced as a whole.

* `Declaration`, `Signature`, `Service`, `Document` : what is declared.
* `Document.merge` : one document over another.
* `Document.function?` : a function by its qualified name.
* `Library` : documents by address.
-/

namespace Parley

/-- A declared type; its parts are named by their types. -/
inductive Declaration where
  | struct (fields : List (String × String))
  | enum (pairs : List (String × Int))
  | array (element : String)
  deriving DecidableEq, Repr

/-- The names of the types a function takes and returns. -/
structure Signature where
  returns : String
  params : List (String × String)
  deriving DecidableEq, Repr

/-- A declared service and its functions. -/
structure Service where
  protocol : String
  uri : String
  functions : List (String × Signature)
  deriving DecidableEq, Repr

/-- The declarations of a document, by name. -/
structure Document where
  types : List (String × Declaration)
  services : List (String × Service)
  deriving DecidableEq, Repr

/-- The service and the function that a qualified name is made of, cut at the last dot. -/
def splitQualified (name : String) : Option (String × String) :=
  let (function, before) := name.toList.reverse.span (· ≠ '.')
  match before with
  | [] => none
  | _ :: service => some (String.ofList service.reverse, String.ofList function.reverse)

namespace Document

/-- A document without declarations. -/
def empty : Document := ⟨[], []⟩

/-- Declares a type. -/
def declare (d : Document) (name : String) (declaration : Declaration) : Document :=
  { d with types := Table.insert name declaration d.types }

/-- Declares a service with its functions. -/
def serve (d : Document) (name protocol uri : String) (functions : List (String × Signature)) :
    Document :=
  { d with services := Table.insert name ⟨protocol, uri, Table.ofList functions⟩ d.services }

/-- The declarations of `d` with those of `later` over them. -/
def merge (d later : Document) : Document :=
  { types := later.types.foldl (fun t e => Table.insert e.1 e.2 t) d.types
    services := later.services.foldl (fun t e => Table.insert e.1 e.2 t) d.services }

/-- A function by its qualified name, with the name of its service. -/
def function? (d : Document) (qualified : String) : Option (String × Signature) := do
  let (service, function) ← splitQualified qualified
  let declared ← Table.find? service d.services
  let signature ← Table.find? function declared.functions
  return (service, signature)

end Document

/-- Documents by address. -/
abbrev Library := List (String × Document)

/-- The document at an address. -/
def Library.load (library : Library) (uri : String) : Except Error Document :=
  match Table.find? uri library with
  | some d => .ok d
  | none => .error (.unknownDocument uri)

end Parley
