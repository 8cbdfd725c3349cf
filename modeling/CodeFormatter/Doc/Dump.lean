import CodeFormatter.Doc.Basic
import CodeFormatter.Text.Quoted

/-!
# Documents as text

A document written the way its builders are called, such as `group(["a", indent([line, "b"])])`. A
hard line with its break mark is written as one word, and an empty sequence as an empty text.
-/

namespace CodeFormatter.Doc

/-- The settings of a group that differ from the usual ones. -/
def dumpSettings (shouldBreak : Bool) (id : Option GroupId) : String :=
  let settings :=
    (if shouldBreak then ["shouldBreak: true"] else [])
      ++ (match id with | some id => ["id: g" ++ toString id] | none => [])
  if settings.isEmpty then "" else ", \x7b " ++ String.intercalate ", " settings ++ " \x7d"

mutual

def dump : Doc → String
  | .text s => Quoted.quote s
  | .concat [] => "\"\""
  | .concat [.line .hard, .breakParent] => "hardline"
  | .concat [.line .literal, .breakParent] => "literalline"
  | .concat parts => "[" ++ String.intercalate ", " (dumpAll parts) ++ "]"
  | .line .normal => "line"
  | .line .soft => "softline"
  | .line .hard => "hardlineWithoutBreakParent"
  | .line .literal => "literallineWithoutBreakParent"
  | .group contents shouldBreak id =>
    "group(" ++ dump contents ++ dumpSettings shouldBreak id ++ ")"
  | .conditionalGroup _ states shouldBreak id =>
    "conditionalGroup([" ++ String.intercalate ", " (dumpAll states) ++ "]"
      ++ dumpSettings shouldBreak id ++ ")"
  | .indent contents => "indent(" ++ dump contents ++ ")"
  | .align (.spaces n) contents => "align(" ++ toString n ++ ", " ++ dump contents ++ ")"
  | .align (.text s) contents => "align(" ++ Quoted.quote s ++ ", " ++ dump contents ++ ")"
  | .align .dedent contents => "dedent(" ++ dump contents ++ ")"
  | .align .dedentToRoot contents => "dedentToRoot(" ++ dump contents ++ ")"
  | .align .root contents => "markAsRoot(" ++ dump contents ++ ")"
  | .fill parts => "fill([" ++ String.intercalate ", " (dumpAll parts) ++ "])"
  | .ifBreak broken flat id =>
    "ifBreak(" ++ dump broken ++ ", " ++ dump flat
      ++ (match id with | some id => ", \x7b groupId: g" ++ toString id ++ " \x7d" | none => "")
      ++ ")"
  | .lineSuffix contents => "lineSuffix(" ++ dump contents ++ ")"
  | .lineSuffixBoundary => "lineSuffixBoundary"
  | .breakParent => "breakParent"
  | .trim => "trim"
  | .cursor => "cursor"

def dumpAll : List Doc → List String
  | [] => []
  | d :: rest => dump d :: dumpAll rest

end

end CodeFormatter.Doc
