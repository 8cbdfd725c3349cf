import CodeFormatter.Walk
import CodeFormatter.JavaScript.Lowered

/-!
# Code in templates

A template with the tag `js` or `javascript` holds code, which is formatted as such. It is left as
it is if it has substitutions or escapes, or does not parse.
-/

namespace CodeFormatter.JavaScript.Embedded

/-- Tags of templates that hold code. -/
def isCodeTag (tag : String) : Bool := tag == "js" || tag == "javascript"

/-- The tag and the template of a node that applies one to the other. -/
def tagged? (t : Node) (children : List (Printable Info)) :
    Option (Printable Info × Printable Info) :=
  match kindOf t, children with
  | .callExpression, [tag, template] =>
    if kindOf tag.node = .identifier && kindOf template.node = .templateString then
      some (tag, template)
    else none
  | _, _ => none

/-- The characters between the quotes. -/
def contents (raw : String) : List Char := raw.toList.tail.dropLast

/-- Can the code be taken as it stands? -/
def isPlain (code : List Char) : Bool :=
  !isInfix ['$', '\x7b'] code && !code.contains '\\' && !code.contains '`'

/-- The options for the code: those of the text around it, for the whole of the code. -/
def codeOptions (options : Options) : Options :=
  { options with
    parser := some "javascript"
    filepath := none
    rangeStart := 0
    rangeEnd := none
    cursorOffset := none
    requirePragma := false
    insertPragma := false }

/-- The document of the code, or nothing if it does not parse. -/
def codeDoc? (scene : Scene) (code : String) : Walk (Option Doc) := do
  match scene.embedded code (codeOptions scene.options) (← get).lastGroup with
  | .ok (doc, last) =>
    modify fun st => { st with lastGroup := last }
    return some doc
  | .error (.parse _) => return none
  | .error e => throw e

/-- The document of a node whose template holds code. -/
def print (scene : Scene) (path : Tree.Path Info) (children : List (Printable Info)) :
    Walk (Option Doc) := do
  match tagged? path.node children with
  | none => return none
  | some (tag, template) =>
    let code := contents (← Walk.source scene template.node)
    if !isCodeTag (← Walk.source scene tag.node) || !isPlain code then return none
    else if (trimBoth code).isEmpty then
      return some (.concat [← tag.print, .text "``"])
    else
      match ← codeDoc? scene (String.ofList code) with
      | none => return none
      | some doc =>
        return some (.concat [← tag.print, .text "`",
          .indent (.concat [Doc.hardline, doc.stripTrailingHardline]), Doc.hardline, .text "`"])

end CodeFormatter.JavaScript.Embedded
