import MatlabDocs.Catalog.Basic

/-!
# Docstrings of plain values

A plain value that is documented in place of an entity is told of by what holds for all
values of its type.
-/

namespace MatlabDocs.Value

def textDocstring : Text :=
  "str(object='') -> str\nstr(bytes_or_buffer[, encoding[, errors]]) -> str\n\n" ++
    "Create a new string object from the given object. If encoding or\n" ++
    "errors is specified, then the object must expose a data buffer\n" ++
    "that will be decoded using the given encoding and error handler.\n" ++
    "Otherwise, returns the result of object.__str__() (if defined)\nor repr(object).\n" ++
    "encoding defaults to sys.getdefaultencoding().\nerrors defaults to 'strict'."

def listDocstring : Text :=
  "Built-in mutable sequence.\n\n" ++
    "If no argument is given, the constructor creates a new empty list.\n" ++
    "The argument must be an iterable if specified."

def mappingDocstring : Text :=
  "dict() -> new empty dictionary\n" ++
    "dict(mapping) -> new dictionary initialized from a mapping object's\n" ++
    "    (key, value) pairs\ndict(iterable) -> new dictionary initialized as if via:\n" ++
    "    d = \x7b\x7d\n    for k, v in iterable:\n        d[k] = v\n" ++
    "dict(**kwargs) -> new dictionary initialized with the name=value pairs\n" ++
    "    in the keyword argument list.  For example:  dict(one=1, two=2)"

def plainDocstring : Value → Option Text
  | text _ => some textDocstring
  | list _ => some listDocstring
  | mapping _ => some mappingDocstring
  | contents _ => some mappingDocstring
  | _ => none

end MatlabDocs.Value
