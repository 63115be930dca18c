import MatlabDocs.Page.Header
import MatlabDocs.Page.Members

/-!
# Entries

An entry is written in steps: its name is read, the thing is found, its module is analyzed,
then come the header, the content and the entries of its members. An entry whose name cannot
be read or whose thing is not found is left out.
-/

namespace MatlabDocs

/-- What an entry is asked for. `analyzedModule` is the module whose analysis is used in place of
the one that the thing belongs to. -/
structure EntryRequest where
  sort : EntrySort
  name : Text
  indent : Text := ""
  more : List PageLine := []
  analyzedModule : Option Text := none
  onlyOwnModule : Bool := false
  allMembers : Bool := false

namespace Page

/-- What holds for an entry and for the entries of its members. -/
structure Writing where
  settings : PageSettings
  options : EntryOptions
  document : Text

def unknownModule (name : Text) : Text :=
  "don't know which module to import for autodocumenting " ++ name.quoted ++
    " (try placing a \"module\" or \"currentmodule\" directive in the document, or giving an " ++
    "explicit module name)"

/-- Finds what an entry is about. Something that is missing is no method. -/
def findEntry (writing : Writing) (sort : EntrySort) (name : EntryName) :
    Writes (Option Finding) := do
  let finding ← find? writing.settings writing.document sort name
  if sort = .method && finding.isNone then throw .noAttributes
  return finding

/-- The module that a thing belongs to. An attribute belongs where its class belongs. -/
def moduleOf (sort : EntrySort) (finding : Finding) : Writes Text := do
  let ofParent := sort = .attributeEntry || sort = .instanceAttribute || sort = .data
  let subject := if ofParent && finding.parent.isPresent then finding.parent else finding.value
  return (← loads (Catalog.statedModule subject)).getD finding.name.module

def analyze (module : Text) : Writes Text := do
  let path ← loads (Catalog.analysisPath module)
  let _ ← loads (Catalog.memberDocs path)
  addDependency path
  return path

def contentIndent : EntrySort → Text
  | .module => ""
  | _ => "   "

/-- Puts the entries of members in order; they come ordered by name. -/
def orderEntries (order : MemberOrder) (tags : NameTable Nat) (name : EntryName)
    (entries : List (EntrySort × Text)) : List (EntrySort × Text) :=
  match order with
  | .alphabetical => entries
  | .groupwise => entries.mergeSort fun a b => a.1.group ≤ b.1.group
  | .bySource =>
    let place (entry : EntrySort × Text) : Nat :=
      (tags.get? (name.tag entry.2)).getD tags.entries.length
    entries.mergeSort fun a b => place a ≤ place b

def memberEntries (writing : Writing) (request : EntryRequest) (finding : Finding)
    (analysis : Text) : Writes (List (EntrySort × Text)) := do
  let options := writing.options
  let wantAll := request.allMembers || options.withInherited || options.members == .all
  let members ← membersOf request.sort options finding (some analysis) wantAll
  let wanted := members.filter fun (name, _) => !options.excluded.admits name
  let chosen ← chooseMembers writing.settings options finding (some analysis) wantAll wanted
  let catalog ← catalog
  let entries := chosen.filterMap fun member =>
    (EntrySort.ofMember? catalog member.value).map (·, member.name)
  return orderEntries (options.order.getD writing.settings.order)
    (catalog.collectedDocs analysis).order finding.name entries

def enterScope (name : EntryName) : Writes Unit :=
  modify fun state => { state with scope := { state.scope with
    module := some name.module, class? := name.path.head? <|> state.scope.class? } }

def leaveScope : Writes Unit :=
  modify fun state => { state with scope := { state.scope with module := none, class? := none } }

def analyzedModule (request : EntryRequest) (finding : Finding) : Writes Text :=
  match EntryName.present? request.analyzedModule with
  | some module => return module
  | none => moduleOf request.sort finding

/-- Whether an entry is written, which may depend on the module that the thing says it belongs
to. -/
def isWanted (request : EntryRequest) (finding : Finding) : Writes Bool := do
  if request.onlyOwnModule then
    return (← loads (Catalog.statedModule finding.value)).all (· == finding.name.module)
  else return true

def writeMembers (writing : Writing) (request : EntryRequest) (finding : Finding)
    (module analysis indent : Text) (writeMember : EntryRequest → Writes Unit) :
    Writes Unit := do
  let renamed := request.sort = .classEntry && isAlias (← catalog) finding
  if request.sort.describesMembers && !renamed then
    enterScope finding.name
    let entries ← memberEntries writing request finding analysis
    entries.forM fun (sort, member) =>
      writeMember
        { sort, indent, allMembers := true, analyzedModule := some module,
          name := EntryName.ofMember finding.name.module finding.name.path member }
    leaveScope

def writeFinding (writing : Writing) (request : EntryRequest) (finding : Finding)
    (writeMember : EntryRequest → Writes Unit) : Writes Unit := do
  let sort := request.sort
  let directive ← directiveOf sort finding
  let module ← analyzedModule request finding
  let analysis ← analyze module
  if ← isWanted request finding then
    addLine request.indent "" generated
    let (signature, rest) ← signatureOf writing.settings sort finding
    let source := docstringSource (some analysis) finding
    addHeader sort directive writing.options finding source request.indent signature
    addLine request.indent "" generated
    let indent := request.indent ++ contentIndent sort
    addContent writing.settings sort finding (some analysis) indent rest request.more
    writeMembers writing request finding module analysis indent writeMember

def writeTo (writing : Writing) : Nat → EntryRequest → Writes Unit
  | 0, _ => return
  | depth + 1, request => do
    match ← readName writing.settings request.sort request.name with
    | none => warn (unknownModule request.name)
    | some name =>
      match ← findEntry writing request.sort name with
      | none => return
      | some finding => writeFinding writing request finding (writeTo writing depth)

/-- Members nest no deeper than a module, a class in it, and a member of the class. -/
def nesting : Nat :=
  3

def write (writing : Writing) (request : EntryRequest) : Writes Unit :=
  writeTo writing nesting request

def readOptions (settings : PageSettings) (sort : EntrySort) (given : NameTable OptionValue) :
    Except Fault EntryOptions :=
  EntryOptions.read sort settings.defaults given

def sortOf (label : Text) : Except Fault EntrySort :=
  match EntrySort.ofLabel? label with
  | some sort => .ok sort
  | none => .error .unknownSort

/-- Answers a request in a document: options that cannot be read are noticed. Nothing is depended
on if nothing is written. -/
def writeRequested (settings : PageSettings) (document label name : Text)
    (given : NameTable OptionValue) (more : List PageLine) : Writes Unit := do
  let sort ← sortOf label
  match readOptions settings sort given with
  | .error fault =>
    if fault.isMissingPart then throw fault
    notify .error ("An option to mat:auto" ++ label ++
      " is either unknown or has an invalid value: " ++ fault.message)
  | .ok options =>
    let options ← options.prepare sort settings.defaults given
    write { settings, options, document } { sort, name, more }
    if (← get).lines.isEmpty then
      modify fun state => { state with dependencies := [] }

def writeAlone (settings : PageSettings) (document label : Text) (given : NameTable OptionValue)
    (request : EntrySort → EntryRequest) : Writes Unit := do
  let sort ← sortOf label
  let options ← (← readOptions settings sort given).prepare sort settings.defaults given
  write { settings, options, document } (request sort)

/-- The members of what an entry is about, those of them that are described, and the content of
the entry. -/
structure MemberSurvey where
  members : List Text
  kept : List Text

def survey (settings : PageSettings) (document label name : Text) (given : NameTable OptionValue)
    (wantAll : Bool) : Writes (Option MemberSurvey) := do
  let sort ← sortOf label
  let options ← (← readOptions settings sort given).prepare sort settings.defaults given
  match ← readName settings sort name with
  | none => return none
  | some entry =>
    match ← findEntry { settings, options, document } sort entry with
    | none => return none
    | some finding =>
      if sort = .method then
        let _ ← loads (isStatic finding.value)
      let members ← membersOf sort options finding none wantAll
      let kept ← chooseMembers settings options finding none wantAll members
      addContent settings sort finding none "" none []
      return some ⟨members.map Prod.fst, kept.map PageMember.name⟩

end Page

end MatlabDocs
