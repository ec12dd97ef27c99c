import ProximitySearch.Utf8

/-!
# Errors

An error says what went wrong as a cause, by the part of the search it arose in. The wording is in one function for
each family of causes, and `SearchError.message` puts the family's name in front.
-/

namespace ProximitySearch

/-- A failure of the storage that entries are read from. -/
inductive StorageFault where
  | io (text : String)
  | index (text : String)
deriving DecidableEq, Repr

/-- Why a byte string is not the composite name it should be. -/
inductive KeyFault where
  | noDocumentSeparator (family : Bytes)
  | datatypeEncoding (fault : Utf8.Fault)
  | uidEncoding (fault : Utf8.Fault)
  | fieldIndexEncoding (fault : Utf8.Fault)
  | noFieldIndexSeparators (qualifier : Bytes)
  | hitEncoding (fault : Utf8.Fault)
  | hitParts (count : Nat)
  | other (text : String)
deriving DecidableEq, Repr

/-- Wording of a key fault. -/
def KeyFault.text : KeyFault → String
  | .noDocumentSeparator family => s!"expected `datatype\\0uid` but found `{Utf8.printable family}`"
  | .datatypeEncoding fault => s!"datatype is not UTF-8: {fault.message}"
  | .uidEncoding fault => s!"uid is not UTF-8: {fault.message}"
  | .fieldIndexEncoding fault => s!"field index qualifier: {fault.message}"
  | .noFieldIndexSeparators qualifier =>
    s!"expected `value\\0datatype\\0uid` but found `{Utf8.printable qualifier}`"
  | .hitEncoding fault => s!"hit is not UTF-8: {fault.message}"
  | .hitParts count => s!"expected `datatype\\0uid\\0value\\0field` but found {count} parts"
  | .other text => text

/-- Why the arguments of a proximity function cannot be used. -/
inductive QueryFault where
  | noArguments (function : String)
  | noTermValues (function : String)
  | noField (function : String)
  | other (text : String)
deriving DecidableEq, Repr

/-- Wording of a query fault. -/
def QueryFault.text : QueryFault → String
  | .noArguments function => s!"`{function}` has no arguments"
  | .noTermValues function => s!"`{function}` has no term values"
  | .noField function => s!"first argument of `{function}` names no field"
  | .other text => text

/-- Why an argument of an operation is refused. -/
inductive ArgumentFault where
  | foreignHit (hit datatype owner : String)
  | other (text : String)
deriving DecidableEq, Repr

/-- Wording of an argument fault. -/
def ArgumentFault.text : ArgumentFault → String
  | .foreignHit hit datatype owner => s!"hit {hit} does not belong to {datatype}/{owner}"
  | .other text => text

/-- Why a configuration cannot be used. -/
inductive ConfigFault where
  | emptyTermFrequencyFamily
  | emptyNamespace
  | noSource
  | other (text : String)
deriving DecidableEq, Repr

/-- Wording of a configuration fault. -/
def ConfigFault.text : ConfigFault → String
  | .emptyTermFrequencyFamily => "term_frequency_family must not be empty"
  | .emptyNamespace => "functions.namespace must not be empty"
  | .noSource => "term frequency lookups need a source"
  | .other text => text

/-- What an operation of the search can fail with. -/
inductive SearchError where
  | storage (fault : StorageFault)
  | parse (text : String)
  | malformedQuery (fault : QueryFault)
  | unsupportedLiteral (function found : String)
  | malformedKey (fault : KeyFault)
  | invalidArgument (fault : ArgumentFault)
  | invalidConfig (fault : ConfigFault)
  | json (text : String)
deriving DecidableEq, Repr

namespace SearchError

/-- Wording of an error. -/
def message : SearchError → String
  | .storage (.io text) => s!"I/O error: {text}"
  | .storage (.index text) => s!"Index error: {text}"
  | .parse text => s!"Parse error: {text}"
  | .malformedQuery fault => s!"Malformed query: {fault.text}"
  | .unsupportedLiteral function found =>
    s!"Unsupported literal in `{function}`: expected a string but found {found}"
  | .malformedKey fault => s!"Malformed key: {fault.text}"
  | .invalidArgument fault => s!"Invalid argument: {fault.text}"
  | .invalidConfig fault => s!"Invalid configuration: {fault.text}"
  | .json text => s!"JSON error: {text}"

/-- Whether the storage is at fault and not the query, the configuration or the data. -/
def isStorage : SearchError → Bool
  | .storage _ => true
  | _ => false

end SearchError

end ProximitySearch
