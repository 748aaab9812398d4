/-
  Choices and criteria from a text and its context.

  A text names choices in "choose between x or y" and "option x", and criteria in
  "criterion x", "based on x" and "considering x and y".  The attributes of a choice are
  those of the clauses that mention it.
-/
import Reasoning.Decision.Attribute
import Reasoning.Text.Search
import Reasoning.Text.Sentence

namespace Reasoning

/-- A name as an id: small letters and digits, an underscore for every other byte. -/
def Text.slug (t : Text) : Text := t.lower.map fun b => if Byte.isAlnum b then b else '_'.toUInt8

/-- The first of several, by a key. -/
def distinctBy {α : Type} (key : α → Text) (as : List α) : List α :=
  as.foldl (fun kept a => if kept.any (key · == key a) then kept else kept ++ [a]) []

/-- The names with a letter or digit, each in its first spelling. -/
def distinctNames (names : List Text) : List Text :=
  distinctBy Text.lower (names.filter Text.hasAlnum)

namespace Choice

/-! ## From a text -/

open Regex in
/-- Two choices behind "choose between" or the like. -/
def between : Regex :=
  let isInLine (b : UInt8) : Bool := b != '\n'.toUInt8 && b != '\r'.toUInt8
  let isInClause (b : UInt8) : Bool := !(".;!?".toUTF8.data.contains b)
  ofList [boundary, oneOf [word "choose", word "select", word "decide", word "pick"], space,
    word "between", space, group 1 (seq (byte isInLine) (few isInLine)), space,
    alt (word "or") (word "and"), space, group 2 (atLeastOne isInClause)]

/-- The bytes of a name that is one word. -/
def isNameByte (b : UInt8) : Bool := Regex.isName b || b == '-'.toUInt8

open Regex in
/-- A name behind a word. -/
def named (w : Text) : Regex := ofList [boundary, word w, space, group 1 (atLeastOne isNameByte)]

/-- What starts a clause that is not part of a name. -/
def clauseStarts : List Text :=
  Text.ofStrings [" based on ", " considering ", " given ", " with ", " because "]

/-- A name without the clause behind it. -/
def cutTrailingClause (t : Text) : Text :=
  let cuts := clauseStarts.filterMap fun s => t.lower.find? s
  Text.trim (match cuts.min? with
    | some n => t.take n
    | none => t)

/-- The names of choices in a text. -/
def names (input : Text) : List Text :=
  let pair := match between.search input with
    | some m => [(m.piece 1).trim, cutTrailingClause (m.piece 2)]
    | none => []
  distinctNames (pair ++ ((named "option").all input).map (·.piece 1))

/-- The clauses of the sentences of a text. -/
def clauses (input : Text) : List Text :=
  input.sentences.flatMap fun s =>
    s.text.splitWhere fun b => b == ','.toUInt8 || b == ';'.toUInt8

/-- The choice of a name, with the attributes of the clauses that mention it. -/
def ofName (name : Text) (clauses : List Text) (confidence : Single) : Choice Single :=
  let mentions := clauses.filter fun c => (c.lower.findWord name.lower).isSome
  mentions.foldl addAttributes
    ⟨name.slug, name, "Option from input", [], [], [], confidence⟩

def ofInput (input : Text) (confidence : Single) : List (Choice Single) :=
  (names input).map fun n => ofName n (clauses input) confidence

/-! ## From a context -/

/-- Sets the attribute of a member: a number, or a text with a number behind an optional
    tag. -/
def addMember (s : Scale) (c : Choice Single) (member : Text × Json) : Choice Single :=
  let key := member.1.lower
  match member.2 with
  | .string t =>
    let tag := t.takeWhile (· != ':'.toUInt8)
    let number := (t.dropWhile (· != ':'.toUInt8)).drop 1
    let isTagged := t.contains ":"
    match Single.ofText? (if isTagged then number else t) with
    | some x =>
      let scale := if isTagged then (Scale.ofTag? (Text.lower (Text.trim tag))).getD s else s
      c.setAttribute s key (scale.normalize x false)
    | none => c
  | v => match v.number? with
    | some x => c.setAttribute s key (s.normalize x true)
    | none => c

/-- Sets the attributes of a field of an entry. -/
def addField (entry : Json) (c : Choice Single) (field : Text × Scale) : Choice Single :=
  ((entry.member? field.1).getD .null).members.foldl (addMember field.2) c

/-- The fields of an entry that hold attributes. -/
def attributeFields : List (Text × Scale) :=
  [("criteriaScores", .score), ("criteria", .score), ("scores", .score),
   ("utilities", .utility), ("risks", .risk)]

/-- The choice that an entry of a context gives: a name, or an object with a name or id. -/
def ofContextValue? (confidence : Single) (entry : Json) : Option (Choice Single) :=
  let blank (name : Text) : Choice Single := ⟨name.slug, name, [], [], [], [], confidence⟩
  let choice := match entry with
    | .string name => blank name
    | .object _ =>
      let c := blank (entry.textField "name" (entry.textField "id" []))
      let id := entry.textField "id" c.id
      attributeFields.foldl (addField entry) { c with
        id := if id.isEmpty then c.id else id
        description := entry.textField "description" []
        confidence := (((entry.member? "confidence").bind Json.number?).map Score.clamp).getD
          confidence }
    | _ => blank []
  if choice.name.isEmpty then none else some choice

def ofContext (context : Json) (confidence : Single) : List (Choice Single) :=
  (context.listField "decisionOptions").filterMap (ofContextValue? confidence)

end Choice

namespace Criterion

/-! ## Criteria -/

open Regex in
/-- What stands behind "based on" or "considering" in a clause. -/
def basis : Regex :=
  let isInClause (b : UInt8) : Bool := !(".,;!?".toUTF8.data.contains b)
  ofList [boundary, alt (word "based on") (word "considering"), space,
    group 1 (atLeastOne isInClause)]

/-- The names of criteria in a text. -/
def names (input : Text) : List Text :=
  distinctNames (((Choice.named "criterion").all input).map (·.piece 1) ++
    (basis.all input).flatMap fun m =>
      ((m.piece 1).splitOnPhrase (Text.ofString " and ")).map Text.trim)

def ofInput (input : Text) : List (Criterion Single) :=
  (names input).map fun n => ⟨n.slug, n.lower, 1, .ofWords n, 0.5⟩

/-- The criterion that an entry of a context gives: a name, or an object with a name or
    id. -/
def ofContextValue? (entry : Json) : Option (Criterion Single) :=
  let criterion : Criterion Single := match entry with
    | .string name => ⟨name.lower.slug, name.lower, 1, .ofWords name.lower, 0.5⟩
    | .object _ =>
      let name := (entry.textField "name" (entry.textField "id" [])).lower
      { id := name.slug
        name := name
        weight := (0 : Single).larger (entry.numberField "weight" 1)
        kind := (Kind.ofName? (entry.textField "type" [])).getD (.ofWords name)
        importance := Score.clamp (entry.numberField "importance" 0.5) }
    | _ => ⟨[], [], 1, .benefit, 0.5⟩
  if criterion.name.isEmpty then none else some criterion

def ofContext (context : Json) : List (Criterion Single) :=
  (context.listField "decisionCriteria").filterMap ofContextValue?

end Criterion

end Reasoning
