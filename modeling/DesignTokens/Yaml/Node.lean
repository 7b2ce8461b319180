import DesignTokens.Yaml.Token

/-!
# Nodes

The nodes of a document as they are written: with anchors, aliases and tags, and with scalars that
have no type yet. A document is one node; directives may come before it. `Node.ofTokens?` reads the
one document of a stream of tokens.
-/

namespace DesignTokens.Yaml

/-- What may stand before the content of a node. -/
structure Properties (ι : Type) where
  anchor : Option ι := none
  /-- The tag, with its handle replaced by what the handle stands for. -/
  tag : Option (List UInt8) := none
  deriving DecidableEq, Repr

/-- A node whose anchors have names in `ι`. -/
inductive Node (ι : Type) where
  | aliasOf (target : ι)
  | scalar (props : Properties ι) (text : List Char) (plain : Bool)
  | sequence (props : Properties ι) (items : List (Node ι))
  | mapping (props : Properties ι) (entries : List (Node ι × Node ι))
  deriving Repr

namespace Node

variable {ι : Type}

/-- The node that stands where nothing is written. -/
def empty (props : Properties ι) : Node ι :=
  .scalar props [] true

/-- The anchor of a node. -/
def anchor : Node ι → Option ι
  | aliasOf _ => none
  | scalar props .. => props.anchor
  | sequence props _ => props.anchor
  | mapping props _ => props.anchor

end Node

/-- What the tag handles of a document stand for. -/
abbrev TagHandles := List (List Char × List UInt8)

namespace TagHandles

/-- The handles that every document has unless it declares them otherwise. -/
def standard : TagHandles :=
  [("!".toList, "!".toUTF8.toList), ("!!".toList, "tag:yaml.org,2002:".toUTF8.toList)]

/-- The tag that a tag name stands for; its handle must be known. -/
def tag? (handles : TagHandles) (name : TagName) : Option (List UInt8) :=
  if name.handle.isEmpty then some name.suffix
  else (handles.lookup name.handle).map (· ++ name.suffix)

end TagHandles

namespace Node

/-! ## Reading nodes

The readers below call each other. Each call either takes a token or leads directly to one that
does, so that a budget of a few calls for every token is never used up. -/

/-- Read an anchor and a tag, in either order. -/
def properties? (handles : TagHandles) :
    List Token → Option (Properties (List Char) × List Token)
  | .anchor a :: .tag t :: ts => do some (⟨some a, ← handles.tag? t⟩, ts)
  | .tag t :: .anchor a :: ts => do some (⟨some a, ← handles.tag? t⟩, ts)
  | .anchor a :: ts => some (⟨some a, none⟩, ts)
  | .tag t :: ts => do some (⟨none, ← handles.tag? t⟩, ts)
  | ts => some ({}, ts)

/-- A scalar. The tag of a single mark only says that there is no other tag. -/
def ofScalar (props : Properties (List Char)) (text : List Char) (plain : Bool) :
    Node (List Char) :=
  if props.tag = some "!".toUTF8.toList then .scalar { props with tag := none } text plain
  else .scalar props text plain

/-- Whether the entry of a block sequence ends before a token. -/
def endsEntry : Option Token → Bool
  | some .blockEntry => true
  | some .blockEnd => true
  | _ => false

/-- Whether the key or the value of a block mapping ends before a token, or the entry of a
sequence that is not indented more deeply than the mapping around it. -/
def endsMappingPart : Option Token → Bool
  | some .key => true
  | some .value => true
  | some .blockEnd => true
  | _ => false

/-- Whether a part of a flow sequence ends before a token. -/
def endsFlowItem : Option Token → Bool
  | some .flowEntry => true
  | some .flowSequenceEnd => true
  | _ => false

/-- Whether a part of a flow mapping ends before a token. -/
def endsFlowPart : Option Token → Bool
  | some .flowEntry => true
  | some .flowMappingEnd => true
  | _ => false

/-- Where a node stands, which decides what it may be. -/
inductive Place where
  /-- Within a flow collection, where no block collection may stand. -/
  | flow
  | block
  /-- The key or the value of a block mapping, where a sequence need not be indented. -/
  | mappingPart
  deriving DecidableEq

mutual

/-- Read a node. -/
def read? (handles : TagHandles) (place : Place) :
    Nat → List Token → Option (Node (List Char) × List Token)
  | 0, _ => none
  | _ + 1, .aliasOf name :: ts => some (.aliasOf name, ts)
  | fuel + 1, ts => do
    let (props, ts) ← properties? handles ts
    match ts with
    | .scalar text plain :: ts => some (ofScalar props text plain, ts)
    | .flowSequenceStart :: ts =>
      let (items, ts) ← flowItems? handles true fuel ts
      some (.sequence props items, ts)
    | .flowMappingStart :: ts =>
      let (entries, ts) ← flowEntries? handles true fuel ts
      some (.mapping props entries, ts)
    | .blockEntry :: _ =>
      if place = .mappingPart then
        let (items, ts) ← looseItems? handles fuel ts
        some (.sequence props items, ts)
      else bare? props ts
    | .blockSequenceStart :: rest =>
      if place = .flow then bare? props ts
      else
        let (items, ts) ← blockItems? handles fuel rest
        some (.sequence props items, ts)
    | .blockMappingStart :: rest =>
      if place = .flow then bare? props ts
      else
        let (entries, ts) ← blockEntries? handles fuel rest
        some (.mapping props entries, ts)
    | ts => bare? props ts

/-- A node of which only the properties are written. -/
def bare? (props : Properties (List Char)) (ts : List Token) :
    Option (Node (List Char) × List Token) :=
  if props.anchor.isSome || props.tag.isSome then some (.empty props, ts) else none

/-- Read the entries of a block sequence and its end. -/
def blockItems? (handles : TagHandles) :
    Nat → List Token → Option (List (Node (List Char)) × List Token)
  | 0, _ => none
  | fuel + 1, .blockEntry :: ts => do
    let (item, ts) ← if endsEntry ts.head? then some (.empty {}, ts)
      else read? handles .block fuel ts
    let (items, ts) ← blockItems? handles fuel ts
    some (item :: items, ts)
  | _ + 1, .blockEnd :: ts => some ([], ts)
  | _ + 1, _ => none

/-- Read the entries of a sequence that is not indented more deeply than the mapping around it. -/
def looseItems? (handles : TagHandles) :
    Nat → List Token → Option (List (Node (List Char)) × List Token)
  | 0, _ => none
  | fuel + 1, .blockEntry :: ts => do
    let (item, ts) ← if endsEntry ts.head? || endsMappingPart ts.head? then some (.empty {}, ts)
      else read? handles .block fuel ts
    let (items, ts) ← looseItems? handles fuel ts
    some (item :: items, ts)
  | _ + 1, ts => some ([], ts)

/-- Read the entries of a block mapping and its end. -/
def blockEntries? (handles : TagHandles) :
    Nat → List Token → Option (List (Node (List Char) × Node (List Char)) × List Token)
  | 0, _ => none
  | fuel + 1, .key :: ts => do
    let (key, ts) ← if endsMappingPart ts.head? then some (.empty {}, ts)
      else read? handles .mappingPart fuel ts
    let (value, ts) ← match ts with
      | .value :: ts =>
        if endsMappingPart ts.head? then some (.empty {}, ts)
        else read? handles .mappingPart fuel ts
      | ts => some (.empty {}, ts)
    let (entries, ts) ← blockEntries? handles fuel ts
    some ((key, value) :: entries, ts)
  | _ + 1, .blockEnd :: ts => some ([], ts)
  | _ + 1, _ => none

/-- Read the items of a flow sequence and its closing bracket. Before each item but the first
there is a comma, and there may be one before the bracket. -/
def flowItems? (handles : TagHandles) (first : Bool) :
    Nat → List Token → Option (List (Node (List Char)) × List Token)
  | 0, _ => none
  | _ + 1, .flowSequenceEnd :: ts => some ([], ts)
  | fuel + 1, ts => do
    let ts ← if first then some ts else match ts with
      | .flowEntry :: ts => some ts
      | _ => none
    match ts with
    | .flowSequenceEnd :: ts => some ([], ts)
    | .key :: ts =>
      let (entry, ts) ← flowPair? handles fuel ts
      let (items, ts) ← flowItems? handles false fuel ts
      some (.mapping {} [entry] :: items, ts)
    | ts =>
      let (item, ts) ← read? handles .flow fuel ts
      let (items, ts) ← flowItems? handles false fuel ts
      some (item :: items, ts)

/-- Read a key and a value that stand in a flow sequence. Where no key is written, the token in
its place is passed over. -/
def flowPair? (handles : TagHandles) :
    Nat → List Token → Option ((Node (List Char) × Node (List Char)) × List Token)
  | 0, _ => none
  | fuel + 1, ts => do
    let (key, ts) ← if ts.head? = some .value || endsFlowItem ts.head? then
        some (.empty {}, ts.tail)
      else read? handles .flow fuel ts
    match ts with
    | .value :: ts =>
      if endsFlowItem ts.head? then some ((key, .empty {}), ts)
      else
        let (value, ts) ← read? handles .flow fuel ts
        some ((key, value), ts)
    | ts => some ((key, .empty {}), ts)

/-- Read the entries of a flow mapping and its closing brace. Before each entry but the first
there is a comma, and there may be one before the brace. -/
def flowEntries? (handles : TagHandles) (first : Bool) :
    Nat → List Token → Option (List (Node (List Char) × Node (List Char)) × List Token)
  | 0, _ => none
  | _ + 1, .flowMappingEnd :: ts => some ([], ts)
  | fuel + 1, ts => do
    let ts ← if first then some ts else match ts with
      | .flowEntry :: ts => some ts
      | _ => none
    match ts with
    | .flowMappingEnd :: ts => some ([], ts)
    | .key :: ts =>
      let (key, ts) ← if ts.head? = some .value || endsFlowPart ts.head? then
          some (.empty {}, ts)
        else read? handles .flow fuel ts
      let (value, ts) ← match ts with
        | .value :: ts =>
          if endsFlowPart ts.head? then some (.empty {}, ts)
          else read? handles .flow fuel ts
        | ts => some (.empty {}, ts)
      let (entries, ts) ← flowEntries? handles false fuel ts
      some ((key, value) :: entries, ts)
    | ts =>
      let (key, ts) ← read? handles .flow fuel ts
      let (entries, ts) ← flowEntries? handles false fuel ts
      some ((key, .empty {}) :: entries, ts)

end

/-! ## Reading a document -/

/-- Read directives. A document has at most one version, which must be 1.1 or 1.2, and at most one
declaration of each tag handle. -/
def directives? : List Token → Bool → TagHandles → Option (TagHandles × List Token)
  | .versionDirective major minor :: ts, versioned, handles =>
    if versioned || major != 1 || (minor != 1 && minor != 2) then none
    else directives? ts true handles
  | .tagDirective handle text :: ts, versioned, handles =>
    if (handles.lookup handle).isSome then none
    else directives? ts versioned (handles ++ [(handle, text)])
  | ts, _, handles => some (handles ++ TagHandles.standard, ts)

/-- Whether a document has no content before a token. -/
def endsDocument : List Token → Bool
  | [] => true
  | .documentStart :: _ => true
  | .documentEnd :: _ => true
  | .versionDirective .. :: _ => true
  | .tagDirective .. :: _ => true
  | _ => false

/-- Read the content of a document, behind which only end markers may come. -/
def content? (handles : TagHandles) (place : Place) (ts : List Token) :
    Option (Node (List Char)) := do
  let (node, ts) ← read? handles place (4 * ts.length + 4) ts
  if ts.all (· = .documentEnd) then some node else none

/-- The document that tokens form. Without tokens there is none; a second document is an error. -/
def ofTokens? (ts : List Token) : Option (Option (Node (List Char))) := do
  match ts with
  | [] => some none
  | _ =>
    let (handles, rest) ← directives? ts false []
    match rest with
    | .documentStart :: content =>
      if endsDocument content then
        if content.all (· = .documentEnd) then some (some (.empty {})) else none
      else (content? handles .block content).map some
    | _ => if rest.length = ts.length then (content? handles .block ts).map some else none

end Node

end DesignTokens.Yaml
