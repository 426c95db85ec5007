import Reprieve.Yaml.Token

/-! The node that the tokens of a YAML text write. An alias stays a leaf with the
number of its anchor, so a node that contains itself is still finite. -/
namespace Reprieve.Yaml

/-- A tag is written out, with its handle replaced. The root of an empty text is void. -/
inductive Node where
  | void
  | alias (anchor : Nat)
  | scalar (tag : Option TypeTag) (style : Style) (text : String)
  | list (tag : Option TypeTag) (items : List Node)
  | mapping (tag : Option TypeTag) (entries : List (Node × Node))
  deriving Repr, Inhabited

/-- A node, the nodes that its aliases stand for, and the number of its pieces:
one for each scalar and alias, two for each list and mapping. -/
structure Graph where
  root : Node
  anchors : List (Nat × Node)
  size : Nat

/-- Tokens to come, tag handles, and what is known of anchors: the number that a
name has at this point, and for each number the nodes that took it, with the place
where they begin. -/
structure Compose where
  tokens : List Token
  handles : List (List Char × List UInt8) := []
  names : List (List Char × Nat) := []
  anchored : List (Nat × Nat × Node) := []
  size : Nat := 0

abbrev Composer := StateT Compose Option

namespace Composer

def peek : Composer Token := do
  let t :: _ := (← get).tokens | failure
  return t

def skip : Composer Unit := modify fun s => { s with tokens := s.tokens.tail }

def take (t : Token) : Composer Bool := do
  if (← peek) = t then skip; return true else return false

def grow (n : Nat) : Composer Unit := modify fun s => { s with size := s.size + n }

def absent : Composer Node := do
  grow 1
  return .scalar none .plain ""

structure Properties where
  anchor : Option (List Char) := none
  tag : Option (List Char × List UInt8) := none

def properties : Composer Properties := do
  match ← peek with
  | .anchor a =>
    skip
    match ← peek with
    | .tag h s => skip; return ⟨some a, some (h, s)⟩
    | _ => return ⟨some a, none⟩
  | .tag h s =>
    skip
    match ← peek with
    | .anchor a => skip; return ⟨some a, some (h, s)⟩
    | _ => return ⟨none, some (h, s)⟩
  | _ => return {}

def resolve : Option (List Char × List UInt8) → Composer (Option TypeTag)
  | none => return none
  | some ([], suffix) => return some ⟨suffix⟩
  | some (handle, suffix) => do
    let some start := (← get).handles.lookup handle | failure
    return some ⟨start ++ suffix⟩

/-- A node begins: its anchor takes as a number how many names there are. -/
def mark : Option (List Char) → Composer (Option (Nat × Nat))
  | none => return none
  | some name => do
    let s ← get
    let n := s.names.length
    let names := (name, n) :: s.names.filter fun e => e.1 != name
    set { s with names }
    return some (n, s.size)

def record (m : Option (Nat × Nat)) (node : Node) : Composer Unit :=
  match m with
  | none => return
  | some (n, at_) => modify fun s => { s with anchored := (n, at_, node) :: s.anchored }

def isBlockSibling (t : Token) : Bool := t = .key || t = .value || t = .blockEnd

mutual

/-- Loops and nodes in one another use fuel for each token at most a few times. -/
def node (block bare : Bool) : Nat → Composer Node
  | 0 => failure
  | fuel + 1 => do
    if let .alias name ← peek then
      skip
      let some n := (← get).names.lookup name | failure
      grow 1
      return .alias n
    let p ← properties
    let tag ← resolve p.tag
    let collection (wrap : Composer Node) : Composer Node := do
      let m ← mark p.anchor
      grow 2
      let n ← wrap
      record m n
      return n
    let scalar (tag : Option TypeTag) (style : Style) (text : String) : Composer Node := do
      let m ← mark p.anchor
      grow 1
      record m (.scalar tag style text)
      return .scalar tag style text
    let t ← peek
    match t with
    | .scalar style text =>
      skip
      scalar tag style (.ofList text)
    | .flowList => skip; collection (return .list tag (← flowItems true fuel))
    | .flowMapping => skip; collection (return .mapping tag (← flowEntries true fuel))
    | _ =>
      if t = .blockEntry && bare then collection (return .list tag (← bareItems fuel))
      else if t = .blockList && block then
        skip; collection (return .list tag (← blockItems fuel))
      else if t = .blockMapping && block then
        skip; collection (return .mapping tag (← blockEntries fuel))
      else if p.anchor.isSome || p.tag.isSome then scalar tag .plain ""
      else failure

def blockItems : Nat → Composer (List Node)
  | 0 => failure
  | fuel + 1 => do
    if ← take .blockEnd then return []
    if !(← take .blockEntry) then failure
    let t ← peek
    let item ← if t = .blockEntry || t = .blockEnd then absent else node true false fuel
    return item :: (← blockItems fuel)

/-- The items of a block list at the indentation of the mapping around it. -/
def bareItems : Nat → Composer (List Node)
  | 0 => failure
  | fuel + 1 => do
    if !(← take .blockEntry) then return []
    let t ← peek
    let item ← if t = .blockEntry || isBlockSibling t then absent else node true false fuel
    return item :: (← bareItems fuel)

def blockEntries : Nat → Composer (List (Node × Node))
  | 0 => failure
  | fuel + 1 => do
    if ← take .blockEnd then return []
    if !(← take .key) then failure
    let key ← if isBlockSibling (← peek) then absent else node true true fuel
    let value ← do
      if ← take .value then
        if isBlockSibling (← peek) then absent else node true true fuel
      else absent
    return (key, value) :: (← blockEntries fuel)

/-- The items of a flow list after its mark. A key makes an item of one entry. -/
def flowItems (first : Bool) : Nat → Composer (List Node)
  | 0 => failure
  | fuel + 1 => do
    if ← take .flowListEnd then return []
    if !first then
      if !(← take .flowEntry) then failure
    if ← take .flowListEnd then return []
    let item ← do
      if ← take .key then
        grow 2
        let t ← peek
        let key ← do
          if t = .value || t = .flowEntry || t = .flowListEnd then skip; absent
          else node false false fuel
        let value ← do
          if ← take .value then
            let t ← peek
            if t = .flowEntry || t = .flowListEnd then absent else node false false fuel
          else absent
        pure (.mapping none [(key, value)])
      else node false false fuel
    return item :: (← flowItems false fuel)

def flowEntries (first : Bool) : Nat → Composer (List (Node × Node))
  | 0 => failure
  | fuel + 1 => do
    if ← take .flowMappingEnd then return []
    if !first then
      if !(← take .flowEntry) then failure
    if ← take .flowMappingEnd then return []
    let isEnd (t : Token) : Bool := t = .flowEntry || t = .flowMappingEnd
    let entry ← do
      if ← take .key then
        let t ← peek
        let key ← if t = .value || isEnd t then absent else node false false fuel
        let value ← do
          if ← take .value then
            if isEnd (← peek) then absent else node false false fuel
          else absent
        pure (key, value)
      else
        let key ← node false false fuel
        pure (key, ← absent)
    return entry :: (← flowEntries false fuel)

end

/-- The directives before a document. Handles are named once; those of all texts
are there unless they are named. -/
def directives : Bool → List Token → Composer Unit
  | versioned, .version major minor :: r => do
    if versioned || major ≠ 1 || (minor ≠ 1 && minor ≠ 2) then failure
    skip
    directives true r
  | versioned, .handle name start :: r => do
    if ((← get).handles.lookup name).isSome then failure
    modify fun s => { s with handles := (name, start) :: s.handles }
    skip
    directives versioned r
  | _, _ => modify fun s => { s with
      handles := s.handles ++ [(['!'], TypeTag.ofChars ['!']),
        (['!', '!'], TypeTag.ofChars "tag:yaml.org,2002:".toList)] }

def isDirective : Token → Bool
  | .version .. | .handle .. => true
  | _ => false

def document : Composer Node := do
  let t ← peek
  if t = .streamEnd then return .void
  directives false (← get).tokens
  let fuel := 4 * (← get).tokens.length + 8
  let root ← do
    if isDirective t || t = .documentStart then
      if !(← take .documentStart) then failure
      let t ← peek
      if isDirective t || t = .documentStart || t = .documentEnd || t = .streamEnd then absent
      else node true false fuel
    else node true false fuel
  let rest := (← get).tokens.dropWhile (· = .documentEnd)
  if rest = [.streamEnd] then return root else failure

end Composer

/-- Of the nodes that took a number the one that begins last has it. -/
def latest (es : List (Nat × Nat × Node)) (n : Nat) : Option Node :=
  (es.foldl (fun best e =>
    if e.1 ≠ n then best
    else match best with
      | some (at_, _) => if at_ < e.2.1 then some e.2 else best
      | none => some e.2) (none : Option (Nat × Node))).map (·.2)

def Graph.ofTokens? (ts : List Token) : Option Graph := do
  let (root, s) ← Composer.document.run { tokens := ts }
  let anchors := (List.range (s.names.length + 1)).filterMap fun n =>
    (latest s.anchored n).map fun node => (n, node)
  return ⟨root, anchors, max s.size 1⟩

def Graph.ofText? (text : String) : Option Graph :=
  (Token.ofText? text.toList).bind Graph.ofTokens?

end Reprieve.Yaml
