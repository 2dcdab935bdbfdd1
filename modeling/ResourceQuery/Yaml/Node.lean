import ResourceQuery.Yaml.Layout
/-!
# YAML nodes

The tree of a text. A node may be given a name and be pointed to by later nodes, also from its
inside, so pointers stay what they are and `Tree` keeps the named nodes beside the tree.
-/

namespace ResourceQuery.Yaml

inductive Node
  | scalar (tag : Option String) (style : Style) (text : String)
  | sequence (items : List Node)
  | mapping (entries : List (Node × Node))
  /-- The node that was given a number. -/
  | alias (number : Nat)

/-- What stands where a node was left out. -/
def Node.void : Node := .scalar none .plain ""

structure Tree where
  node : Node
  /-- Named nodes by their numbers. -/
  named : List (Nat × Node)

/-- The tokens that are left, and the names given so far. -/
structure Progress where
  tokens : List Token
  /-- The texts that handles of tags stand for. -/
  handles : List (String × String)
  /-- The numbers of names, those given last in front. -/
  names : List (String × Nat)
  named : List (Nat × Node)

abbrev NodeReader := StateT Progress Option

namespace NodeReader

def peek : NodeReader Token := do
  return ((← get).tokens.head?).getD .streamEnd

def skip : NodeReader Unit := modify fun p => { p with tokens := p.tokens.drop 1 }

def refuse {α : Type} : NodeReader α := StateT.lift none

/-- Take a token if it comes next. -/
def skipIf (token : Token) : NodeReader Bool := do
  if (← peek) = token then
    skip
    return true
  else return false

def expect (token : Token) : NodeReader Unit := do
  if !(← skipIf token) then refuse

/-- The name and the tag of a node, in either order. -/
def properties : NodeReader (Option String × Option (String × String)) := do
  match ← peek with
  | .anchor name =>
    skip
    match ← peek with
    | .tag handle suffix =>
      skip
      return (some name, some (handle, suffix))
    | _ => return (some name, none)
  | .tag handle suffix =>
    skip
    match ← peek with
    | .anchor name =>
      skip
      return (some name, some (handle, suffix))
    | _ => return (none, some (handle, suffix))
  | _ => return (none, none)

/-- The full text of a tag. -/
def resolveTag (tag : Option (String × String)) : NodeReader (Option String) := do
  match tag with
  | none => return none
  | some (handle, suffix) =>
    if handle.isEmpty then return some suffix
    else match (← get).handles.lookup handle with
      | some start => return some (start ++ suffix)
      | none => refuse

/-- A tag that says no more than that there is one counts as none. -/
def scalarTag (tag : Option String) : Option String := tag.filter fun t => t != "!"

/-- Give the next number to a name. -/
def name (anchor : Option String) : NodeReader (Option Nat) := do
  match anchor with
  | none => return none
  | some name =>
    let p ← get
    let number := p.names.length
    set { p with names := (name, number) :: p.names }
    return some number

/-- The node with its number, if it was given one. -/
def keep (number : Option Nat) (node : Node) : NodeReader Node := do
  if let some n := number then modify fun p => { p with named := (n, node) :: p.named }
  return node

mutual

/-- A node. Blocks begin only where they are allowed, and so do sequences without indentation. -/
def node (block indentless : Bool) : Nat → NodeReader Node
  | 0 => refuse
  | steps + 1 => do
    if let .alias aliased := ← peek then
      skip
      match (← get).names.lookup aliased with
      | some number => return .alias number
      | none => refuse
    else
      let (anchor, written) ← properties
      let tag ← resolveTag written
      let token ← peek
      let number ← name anchor
      match token with
      | .scalar style text =>
        skip
        keep number (.scalar (scalarTag tag) style text)
      | .entry =>
        if indentless then keep number (.sequence (← indentlessItems steps))
        else if anchor.isSome || tag.isSome then keep number (.scalar tag .plain "")
        else refuse
      | .flowSequence =>
        skip
        keep number (.sequence (← flowItems true steps))
      | .flowMapping =>
        skip
        keep number (.mapping (← flowEntries true steps))
      | .blockSequence =>
        if block then
          skip
          keep number (.sequence (← blockItems steps))
        else if anchor.isSome || tag.isSome then keep number (.scalar tag .plain "")
        else refuse
      | .blockMapping =>
        if block then
          skip
          keep number (.mapping (← blockEntries steps))
        else if anchor.isSome || tag.isSome then keep number (.scalar tag .plain "")
        else refuse
      | _ =>
        if anchor.isSome || tag.isSome then keep number (.scalar tag .plain "")
        else refuse

/-- A node, unless one of some tokens stands where it would begin. -/
def nodeUnless (ends : List Token) (block indentless : Bool) : Nat → NodeReader Node
  | 0 => refuse
  | steps + 1 => do
    if ends.contains (← peek) then return .void else node block indentless steps

def blockItems : Nat → NodeReader (List Node)
  | 0 => refuse
  | steps + 1 => do
    if ← skipIf .entry then
      let item ← nodeUnless [.entry, .blockEnd] true false steps
      return item :: (← blockItems steps)
    else
      expect .blockEnd
      return []

def indentlessItems : Nat → NodeReader (List Node)
  | 0 => refuse
  | steps + 1 => do
    if ← skipIf .entry then
      let item ← nodeUnless [.entry, .key, .value, .blockEnd] true false steps
      return item :: (← indentlessItems steps)
    else return []

def blockEntries : Nat → NodeReader (List (Node × Node))
  | 0 => refuse
  | steps + 1 => do
    if ← skipIf .key then
      let key ← nodeUnless [.key, .value, .blockEnd] true true steps
      let value ←
        if ← skipIf .value then nodeUnless [.key, .value, .blockEnd] true true steps
        else pure .void
      return (key, value) :: (← blockEntries steps)
    else
      expect .blockEnd
      return []

/-- The items of a sequence in brackets, with commas between them. An item may be a key with its
value. -/
def flowItems (first : Bool) : Nat → NodeReader (List Node)
  | 0 => refuse
  | steps + 1 => do
    if ← skipIf .flowSequenceEnd then return []
    else
      if !first then expect .comma
      if ← skipIf .flowSequenceEnd then return []
      else if ← skipIf .key then
        let entry ← pair steps
        return .mapping [entry] :: (← flowItems false steps)
      else
        let item ← node false false steps
        return item :: (← flowItems false steps)

/-- A key and its value inside a sequence. Where the key is left out, the next token is lost. -/
def pair : Nat → NodeReader (Node × Node)
  | 0 => refuse
  | steps + 1 => do
    let key ←
      if [Token.value, .comma, .flowSequenceEnd].contains (← peek) then do
        skip
        pure .void
      else node false false steps
    let value ←
      if ← skipIf .value then nodeUnless [.comma, .flowSequenceEnd] false false steps
      else pure .void
    return (key, value)

/-- The entries of a mapping in brackets, with commas between them. A value may be left out. -/
def flowEntries (first : Bool) : Nat → NodeReader (List (Node × Node))
  | 0 => refuse
  | steps + 1 => do
    if ← skipIf .flowMappingEnd then return []
    else
      if !first then expect .comma
      if ← skipIf .flowMappingEnd then return []
      else if ← skipIf .key then
        let key ← nodeUnless [.value, .comma, .flowMappingEnd] false false steps
        let value ←
          if ← skipIf .value then nodeUnless [.comma, .flowMappingEnd] false false steps
          else pure .void
        return (key, value) :: (← flowEntries false steps)
      else
        let key ← node false false steps
        return (key, .void) :: (← flowEntries false steps)

end

/-- The handles that need no directive. -/
def standardHandles : List (String × String) := [("!", "!"), ("!!", "tag:yaml.org,2002:")]

/-- The directives in front of a document; the version must be known and neither a version nor a
handle may be given twice. -/
def directives (versioned : Bool) (handles : List (String × String)) :
    Nat → NodeReader (Bool × List (String × String))
  | 0 => refuse
  | steps + 1 => do
    match ← peek with
    | .versionDirective major minor =>
      if versioned || major != 1 || (minor != 1 && minor != 2) then refuse
      skip
      directives true handles steps
    | .tagDirective handle start =>
      if (handles.lookup handle).isSome then refuse
      skip
      let (_, others) ← directives versioned (handles ++ [(handle, start)]) steps
      return (true, others)
    | _ => return (versioned, handles)

/-- The only document of a text. -/
def document : NodeReader Node := do
  let steps := 3 * (← get).tokens.length + 3
  let (directed, handles) ← directives false [] steps
  modify fun p => { p with handles := handles ++ standardHandles }
  let root ←
    if ← skipIf .documentStart then
      nodeUnless [.documentStart, .documentEnd, .streamEnd] true false steps
    else if directed then refuse
    else if (← peek) = .streamEnd then pure .void
    else node true false steps
  modify fun p => { p with tokens := p.tokens.dropWhile fun token => token = .documentEnd }
  if (← peek) = .streamEnd then return root else refuse

end NodeReader

/-- The tree of a text that holds one document, or none. -/
def Tree.ofText? (text : String) : Option Tree := do
  let tokens ← Token.ofText? text
  let (node, progress) ← NodeReader.document.run ⟨tokens, [], [], []⟩
  some ⟨node, progress.named⟩

end ResourceQuery.Yaml
