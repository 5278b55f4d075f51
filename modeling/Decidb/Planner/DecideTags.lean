import Mathlib.Data.List.Infix

/-!
# Tagged aliases

The alias of a bound expression carries pipeline metadata: tags are appended to whatever name it has,
each between two delimiters, and are found again by searching the text. A tag is kept here as what
stands between its delimiters, with the proof that nothing in it can be taken for a delimiter.
-/

namespace Decidb

/-- What opens and closes a tag. -/
def tagDelimiter : List Char := ['_', '_']

/-- A text that holds no delimiter and neither opens nor closes with an underscore. -/
structure IsTagBody (body : List Char) : Prop where
  undelimited : ¬ tagDelimiter <:+: body
  opens : body.head? ≠ some '_'
  closes : body.getLast? ≠ some '_'
  ne_nil : body ≠ []

instance (body : List Char) : Decidable (IsTagBody body) :=
  decidable_of_iff
    (¬ tagDelimiter <:+: body ∧ body.head? ≠ some '_' ∧ body.getLast? ≠ some '_' ∧ body ≠ [])
    ⟨fun h => ⟨h.1, h.2.1, h.2.2.1, h.2.2.2⟩, fun h => ⟨h.undelimited, h.opens, h.closes, h.ne_nil⟩⟩

/-- A tag, by its body. -/
structure DecideTag where
  body : List Char
  isTagBody : IsTagBody body
  deriving DecidableEq

/-- The text of a tag. -/
def DecideTag.spelling (tag : DecideTag) : List Char := tagDelimiter ++ tag.body ++ tagDelimiter

/-- An alias: an ordinary name and the tags appended to it, in order. -/
structure NodeAlias where
  name : List Char := []
  tags : List DecideTag := []
  deriving DecidableEq

namespace NodeAlias

/-- The text of an alias. -/
def spelling (nodeAlias : NodeAlias) : List Char :=
  nodeAlias.name ++ nodeAlias.tags.flatMap DecideTag.spelling

/-- `AddDecideTag`, on the list of tags. -/
def addTag (nodeAlias : NodeAlias) (tag : DecideTag) : NodeAlias :=
  { nodeAlias with tags := nodeAlias.tags ++ [tag] }

/-- `HasDecideTag`, on the list of tags. -/
def hasTag (nodeAlias : NodeAlias) (tag : DecideTag) : Bool := decide (tag ∈ nodeAlias.tags)

/-- `RemoveDecideTag`, on the list of tags. -/
def removeTag (nodeAlias : NodeAlias) (tag : DecideTag) : NodeAlias :=
  { nodeAlias with tags := nodeAlias.tags.filter (· ≠ tag) }

end NodeAlias

/-! ## Searching the text -/

/-- `string::find`: where a pattern first occurs. -/
def findText (pattern : List Char) : List Char → Option Nat
  | [] => if pattern.isEmpty then some 0 else none
  | c :: text => if pattern.isPrefixOf (c :: text) then some 0 else (findText pattern text).map (· + 1)

/-- `string::rfind`: where a pattern last occurs, at `last` or before it. -/
def rfindText (pattern text : List Char) (last : Nat) : Option Nat :=
  (List.range (min (last + 1) (text.length + 1))).reverse.find? fun start =>
    pattern.isPrefixOf (text.drop start)

/-- `string::erase`, of so many characters from a position on. -/
def eraseText (text : List Char) (start count : Nat) : List Char :=
  text.take start ++ text.drop (start + count)

/-- `HasDecideTag`. -/
def hasDecideTag (nodeAlias tag : List Char) : Bool := (findText tag nodeAlias).isSome

/-- `AddDecideTag`. -/
def addDecideTag (nodeAlias tag : List Char) : List Char := nodeAlias ++ tag

/-- The loop of `RemoveDecideTag`; an alias of so many characters holds no more tags than that. -/
def removeDecideTagLoop (tag : List Char) : Nat → List Char → List Char
  | 0, nodeAlias => nodeAlias
  | fuel + 1, nodeAlias =>
    match findText tag nodeAlias with
    | none => nodeAlias
    | some start => removeDecideTagLoop tag fuel (eraseText nodeAlias start tag.length)

/-- `RemoveDecideTag`. -/
def removeDecideTag (nodeAlias tag : List Char) : List Char :=
  removeDecideTagLoop tag nodeAlias.length nodeAlias

/-- The loop of `StripDecideTags`. -/
def stripDecideTagsLoop : Nat → List Char → List Char
  | 0, text => text
  | fuel + 1, text =>
    if 2 < text.length ∧ text.drop (text.length - 2) = tagDelimiter then
      match rfindText tagDelimiter text (text.length - 3) with
      | none => text
      | some start => stripDecideTagsLoop fuel (text.take start)
    else text

/-- `StripDecideTags`. -/
def stripDecideTags (nodeAlias : List Char) : List Char :=
  stripDecideTagsLoop nodeAlias.length nodeAlias

/-- `ExtractDecideTagPayload`. -/
def extractDecideTagPayload (nodeAlias opening : List Char) : Option (List Char) :=
  match findText opening nodeAlias with
  | none => none
  | some start =>
    let text := nodeAlias.drop (start + opening.length)
    match findText tagDelimiter text with
    | none => none
    | some stop => if stop = 0 then none else some (text.take stop)

/-! ## The tags the canonical form is built with -/

theorem isTagBody_queryWideValue : IsTagBody "query_wide_value".toList := by decide

theorem isTagBody_queryWideBound : IsTagBody "query_wide_bound".toList := by decide

/-- `QUERY_WIDE_VALUE_TAG`. -/
def queryWideValueTag : DecideTag := ⟨"query_wide_value".toList, isTagBody_queryWideValue⟩

/-- `QUERY_WIDE_BOUND_TAG`. -/
def queryWideBoundTag : DecideTag := ⟨"query_wide_bound".toList, isTagBody_queryWideBound⟩

end Decidb
