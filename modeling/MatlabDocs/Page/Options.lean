import MatlabDocs.Page.Sort

/-!
# Options of entries

The options of a request are completed by the defaults of the project and read by rules that
depend on the sort of entry. An entry shares its options with the entries of its members.
-/

namespace MatlabDocs

inductive OptionValue where
  | unset
  | flag (value : Bool)
  | text (value : Text)
  deriving DecidableEq, Repr

namespace OptionValue

def shown : OptionValue → Text
  | unset => "None"
  | flag true => "True"
  | flag false => "False"
  | text value => value.quoted

def plain : OptionValue → Text
  | text value => value
  | value => value.shown

end OptionValue

/-- A choice of names: all names, or those in a list. -/
inductive NameChoice where
  | all
  | names (names : List Text)
  deriving DecidableEq, Repr

namespace NameChoice

def none : NameChoice :=
  .names []

def admits : NameChoice → Text → Bool
  | all, _ => true
  | names list, name => list.contains name

end NameChoice

inductive MemberOrder where
  | alphabetical
  | groupwise
  | bySource
  deriving DecidableEq, Repr

namespace MemberOrder

def ofName (name : Text) : MemberOrder :=
  if name == "groupwise" then .groupwise
  else if name == "bysource" then .bySource
  else .alphabetical

end MemberOrder

inductive ValueNote where
  | value
  | hidden
  | text (text : Text)
  deriving DecidableEq, Repr

structure EntryOptions where
  members : NameChoice := .none
  withUndocumented : Bool := false
  unlisted : Bool := false
  withInherited : Bool := false
  showBases : Bool := false
  synopsis : Text := ""
  platform : Text := ""
  deprecated : Bool := false
  order : Option MemberOrder := none
  excluded : NameChoice := .none
  privateMembers : NameChoice := .none
  specialMembers : NameChoice := .none
  protectedMembers : NameChoice := .none
  hiddenMembers : NameChoice := .none
  friendMembers : NameChoice := .none
  valueNote : ValueNote := .value
  hideValue : Bool := false
  deriving DecidableEq, Repr

inductive OptionRule where
  | names
  | excludedNames
  | switch
  | note
  | knownOrder
  | anyText
  | ancestors
  | docSource
  deriving DecidableEq, Repr

namespace EntrySort

def indexRules : List (Text × OptionRule) :=
  [("no-index", .switch), ("noindex", .switch)]

def optionRules : EntrySort → List (Text × OptionRule)
  | module => indexRules ++ ([("members", .names), ("undoc-members", .switch),
      ("inherited-members", .ancestors), ("show-inheritance", .switch), ("synopsis", .anyText),
      ("platform", .anyText), ("deprecated", .switch), ("member-order", .knownOrder),
      ("exclude-members", .excludedNames), ("private-members", .names),
      ("special-members", .names), ("imported-members", .switch), ("ignore-module-all", .switch),
      ("no-value", .switch)] : List (Text × OptionRule))
  | classEntry => [("members", .names), ("undoc-members", .switch), ("noindex", .switch),
      ("inherited-members", .switch), ("show-inheritance", .switch), ("member-order", .anyText),
      ("exclude-members", .names), ("special-members", .names), ("private-members", .names),
      ("protected-members", .names), ("hidden-members", .names), ("friend-members", .names)]
  | exception => indexRules ++ ([("members", .names), ("undoc-members", .switch),
      ("inherited-members", .ancestors), ("show-inheritance", .switch),
      ("member-order", .knownOrder), ("exclude-members", .excludedNames),
      ("private-members", .names), ("special-members", .names),
      ("class-doc-from", .docSource)] : List (Text × OptionRule))
  | attributeEntry => ("annotation", .note) :: indexRules
  | instanceAttribute => ("annotation", .note) :: indexRules
  | data => ("annotation", .note) :: ("no-value", .switch) :: indexRules
  | _ => indexRules

end EntrySort

namespace EntryOptions

def defaultable : List Text :=
  ["members", "undoc-members", "inherited-members", "show-inheritance", "private-members",
   "special-members", "ignore-module-all", "exclude-members", "member-order",
   "imported-members", "class-doc-from", "no-value"]

/-- The options whose values are lists, to which a value with a plus sign is added. -/
def extendable : List Text :=
  ["members", "private-members", "special-members", "exclude-members"]

/-- Takes in the default of one option. A request can turn an option off by its name with `no-` in
front. -/
def completeOne (defaults options : NameTable OptionValue) (name : Text) :
    NameTable OptionValue :=
  let negated := options.get? ("no-" ++ name) == some .unset
  let given := options.filter fun other _ => other != "no-" ++ name
  match defaults.get? name, negated with
  | some (.text default), false =>
    match given.get? name with
    | some (.text ('+' :: added)) =>
      if extendable.contains name then given.insert name (.text (default ++ "," ++ added))
      else given
    | some _ => given
    | none => given.insert name (.text default)
  | some default, false => given.insert name default
  | _, _ =>
    match given.get? name with
    | some (.text value) => given.insert name (.text (value.dropWhile (· == '+')))
    | _ => given

def complete (sort : EntrySort) (defaults options : NameTable OptionValue) :
    NameTable OptionValue :=
  (defaultable.filter fun name => (sort.optionRules.lookup name).isSome).foldl
    (completeOne defaults) options

def namesIn (text : Text) : List Text :=
  ((text.splitOn ',').map Text.strip).filter (· ≠ [])

def readNames : OptionValue → NameChoice
  | .unset => .all
  | .flag true => .all
  | .flag false => .none
  | .text value => .names (namesIn value)

/-- Excludes nothing when no names are given. -/
def readExcluded : OptionValue → Except Fault NameChoice
  | .unset => .ok .none
  | .flag true => .ok .none
  | .flag false => .error .refusedExclusion
  | .text value => .ok (.names (namesIn value))

def readNote : OptionValue → ValueNote
  | .unset => .hidden
  | .flag true => .hidden
  | .flag false => .value
  | .text value => if value = [] then .value else .text value

/-- An order that the request leaves open is none. -/
def readOrder : OptionValue → Option MemberOrder
  | .unset => none
  | .flag true => some .alphabetical
  | .flag false => none
  | .text value => if value = [] then none else some (MemberOrder.ofName value)

def readKnownOrder (value : OptionValue) : Except Fault (Option MemberOrder) :=
  match value with
  | .unset => .ok none
  | .flag true => .ok none
  | _ =>
    if value == .text "alphabetical" || value == .text "bysource" || value == .text "groupwise" then
      .ok (readOrder value)
    else .error (.invalidOption "member-order" value.shown
      ("invalid value for member-order option: " ++ value.plain))

def readDocSource (value : OptionValue) : Except Fault Unit :=
  if value == .text "both" || value == .text "class" || value == .text "init" then .ok ()
  else .error (.invalidOption "class-doc-from" value.shown
    ("invalid value for class-doc-from option: " ++ value.plain))

def readAncestors : OptionValue → Bool
  | .flag false => false
  | .text value => value ≠ []
  | _ => true

def readText : OptionValue → Text
  | .text value => value
  | _ => ""

def setNames (options : EntryOptions) (name : Text) (choice : NameChoice) : EntryOptions :=
  if name == "members" then { options with members := choice }
  else if name == "exclude-members" then { options with excluded := choice }
  else if name == "private-members" then { options with privateMembers := choice }
  else if name == "special-members" then { options with specialMembers := choice }
  else if name == "protected-members" then { options with protectedMembers := choice }
  else if name == "hidden-members" then { options with hiddenMembers := choice }
  else if name == "friend-members" then { options with friendMembers := choice }
  else options

def setSwitch (options : EntryOptions) (name : Text) : EntryOptions :=
  if name == "undoc-members" then { options with withUndocumented := true }
  else if name == "no-index" || name == "noindex" then { options with unlisted := true }
  else if name == "inherited-members" then { options with withInherited := true }
  else if name == "show-inheritance" then { options with showBases := true }
  else if name == "deprecated" then { options with deprecated := true }
  else if name == "no-value" then { options with hideValue := true }
  else options

def setText (options : EntryOptions) (name : Text) (value : OptionValue) : EntryOptions :=
  if name == "synopsis" then { options with synopsis := readText value }
  else if name == "platform" then { options with platform := readText value }
  else if name == "member-order" then { options with order := readOrder value }
  else options

def readOne (rules : List (Text × OptionRule)) (options : EntryOptions) :
    Text × OptionValue → Except Fault EntryOptions
  | (name, value) =>
    match rules.lookup name with
    | none => .error (.unknownOption name)
    | some .names => .ok (options.setNames name (readNames value))
    | some .excludedNames => return options.setNames name (← readExcluded value)
    | some .switch => .ok (options.setSwitch name)
    | some .note => .ok { options with valueNote := readNote value }
    | some .knownOrder => return { options with order := ← readKnownOrder value }
    | some .anyText => .ok (options.setText name value)
    | some .ancestors => .ok { options with withInherited := readAncestors value }
    | some .docSource => do
      readDocSource value
      return options

def read (sort : EntrySort) (defaults options : NameTable OptionValue) :
    Except Fault EntryOptions :=
  (complete sort defaults options).entries.foldlM (readOne sort.optionRules) {}

def addMissing (members : List Text) : NameChoice → List Text
  | .all => members
  | .names others =>
    others.foldl (fun members name => if members.contains name then members else members ++ [name])
      members

/-- In a module, private and special members that are named are members that are named. -/
def mergeMembers (options : EntryOptions) (refused : Bool) : Except Fault EntryOptions :=
  match options.members with
  | .all => .ok options
  | .names members =>
    let merged := addMissing (addMissing members options.privateMembers) options.specialMembers
    if refused && merged ≠ [] then .error .refusedMembers
    else .ok { options with members := .names merged }

def prepare (sort : EntrySort) (defaults given : NameTable OptionValue) (options : EntryOptions) :
    Except Fault EntryOptions :=
  match sort with
  | .module | .exception =>
    options.mergeMembers ((complete sort defaults given).get? "members" == some (.flag false))
  | _ => .ok options

end EntryOptions

end MatlabDocs
