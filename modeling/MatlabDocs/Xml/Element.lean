import MatlabDocs.Token.Lexer
import MatlabDocs.Xml.Markup

/-!
# Elements

The tree of elements of a document. A name belongs to the namespace that its prefix stands
for, and the text of an element ends where its first child starts.
-/

namespace MatlabDocs.Xml

inductive Element where
  | node (space name text : Text) (children : List Element)

namespace Element

def space : Element → Text
  | node space _ _ _ => space

def name : Element → Text
  | node _ name _ _ => name

def text : Element → Text
  | node _ _ text _ => text

def children : Element → List Element
  | node _ _ _ children => children

def child? (element : Element) (space name : Text) : Option Element :=
  element.children.find? fun child => child.space == space && child.name == name

end Element

/-- The namespaces that prefixes stand for; the empty prefix is that of names without one. -/
abbrev Bindings := List (Text × Text)

def xmlSpace : Text :=
  "http://www.w3.org/XML/1998/namespace"

def splitName (name : Text) : Text × Text :=
  match name.splitOn ':' with
  | [start, part] => (start, part)
  | _ => ([], name)

/-- The namespace declared by an attribute; `none` inside means that the attribute declares
nothing, `none` outside that it must not stand there. -/
def declaration? (entry : Text × Text) : Option (Option (Text × Text)) :=
  let (start, part) := splitName entry.1
  if entry.1 == "xmlns" then some (some ([], entry.2))
  else if start == "xmlns" then
    if part == "xmlns" || entry.2 = [] then none
    else if (part == "xml") == (entry.2 == xmlSpace) then some (some (part, entry.2))
    else none
  else some none

/-- The namespace and the local part of a name; a prefix has to be declared. -/
def resolve? (bindings : Bindings) (name : Text) : Option (Text × Text) :=
  let (start, part) := splitName name
  if start = [] then some ((bindings.lookup []).getD [], part)
  else if start == "xml" then some (xmlSpace, part)
  else (bindings.lookup start).map (·, part)

structure Open where
  rawName : Text
  space : Text
  name : Text
  bindings : Bindings
  text : Text := []
  children : List Element := []

structure Builder where
  stack : List Open := []
  root : Option Element := none

namespace Builder

def allDistinct : List (Text × Text) → Bool
  | [] => true
  | first :: rest => !rest.contains first && allDistinct rest

def openElement (builder : Builder) (rawName : Text) (attributes : List (Text × Text)) :
    Option Builder := do
  if builder.stack.isEmpty && builder.root.isSome then none
  else
    let outer := (builder.stack.head?.map Open.bindings).getD []
    let declared ← attributes.mapM declaration?
    let bindings := declared.filterMap id ++ outer
    let (space, name) ← resolve? bindings rawName
    let plain := attributes.filter fun attr => declaration? attr == some none
    let prefixed := plain.filter fun attr => attr.1.contains ':'
    let _ ← prefixed.mapM fun attr => resolve? bindings attr.1
    let expanded := plain.map fun attr =>
      if attr.1.contains ':' then (resolve? bindings attr.1).getD ([], attr.1) else ([], attr.1)
    let namesOnly := attributes.map fun attr => (attr.1, [])
    if allDistinct namesOnly && allDistinct expanded then
      return { builder with stack := { rawName, space, name, bindings } :: builder.stack }
    else none

def closeElement (builder : Builder) (rawName : Text) : Option Builder :=
  match builder.stack with
  | [] => none
  | top :: below =>
    if top.rawName = rawName then
      let element := Element.node top.space top.name top.text top.children
      match below with
      | [] => some { stack := [], root := some element }
      | parent :: rest =>
        some { builder with
          stack := { parent with children := parent.children ++ [element] } :: rest }
    else none

def addText (builder : Builder) (text : Text) : Option Builder :=
  match builder.stack with
  | [] => if text.all isSpace then some builder else none
  | top :: below =>
    if top.children.isEmpty then
      some { builder with stack := { top with text := top.text ++ text } :: below }
    else some builder

def step (builder : Builder) : Markup → Option Builder
  | .opening name attributes => builder.openElement name attributes
  | .closing name => builder.closeElement name
  | .characters text => builder.addText text
  | .doctype => if builder.stack.isEmpty && builder.root.isNone then some builder else none

end Builder

/-- What follows the declaration at the start of a document, if it has one. -/
def afterDeclaration? (text : Text) : Option Text :=
  match Text.afterStart? "<?xml" text with
  | some (c :: rest) =>
    if isSpace c then do
      let (content, after) ← splitAtMark? "?>" rest
      if Text.startsWith (content.dropWhile isSpace) "version" then return after else none
    else some text
  | _ => some text

def parse? (document : Text) : Option Element := do
  let unmarked := match document with
    | c :: rest => if c = Char.ofNat 0xFEFF then rest else c :: rest
    | [] => []
  let content ← afterDeclaration? (unixNewlines unmarked)
  let markup ← readMarkup? content
  let builder ← markup.foldlM Builder.step {}
  if builder.stack.isEmpty then builder.root else none

end MatlabDocs.Xml
