import MatlabDocs.Definition.Function
import MatlabDocs.Table

/-!
# Classes

A class has attributes, base classes, properties and methods. The attributes of a block of
properties or methods belong to each of its members.
-/

namespace MatlabDocs

inductive AttributeValue where
  | flag (value : Bool)
  | word (value : Text)
  | items (values : List Text)
  deriving DecidableEq, Repr

abbrev Attributes := NameTable AttributeValue

/-- What is known of a property. A default value or a docstring that was looked for and not
found is `some none`; one that was never looked for is `none`. -/
structure PropertyDef where
  attributes : Attributes
  default? : Option (Option Text) := none
  docstring? : Option (Option Text) := none
  deriving DecidableEq, Repr

structure MethodDef where
  name : Text
  signature : FunctionDef
  attributes : Attributes
  deriving DecidableEq, Repr

/-- `index` is the number of tokens that were read; it is absent when the class was given
up within its properties. -/
structure ClassDef where
  name : Text
  module : Text
  tokens : List Token
  docstring : Text := []
  attributes : Attributes := {}
  bases : List Text := []
  properties : NameTable PropertyDef := {}
  methods : NameTable MethodDef := {}
  index : Option Nat := none
  deriving DecidableEq, Repr

namespace ClassDef

def classAttributes : List Text :=
  ["Abstract", "AllowedSubclasses", "ConstructOnLoad", "HandleCompatible", "Hidden",
   "InferiorClasses", "Sealed"]

def propertyAttributes : List Text :=
  ["AbortSet", "Abstract", "Access", "Constant", "Dependent", "GetAccess", "GetObservable",
   "Hidden", "NonCopyable", "SetAccess", "SetObservable", "Transient", "ClassSetupParameter",
   "MethodSetupParameter", "TestParameter"]

def methodAttributes : List Text :=
  ["Abstract", "Access", "Hidden", "Sealed", "Static", "Test", "TestClassSetup",
   "TestMethodSetup", "TestClassTeardown", "TestMethodTeardown", "ParameterCombination"]

end ClassDef

end MatlabDocs
