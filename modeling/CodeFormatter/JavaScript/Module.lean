import CodeFormatter.JavaScript.Declaration

/-!
# Imports and exports
-/

namespace CodeFormatter.JavaScript.Module

open CodeFormatter.JavaScript.Parser

variable (g : Grammar)

/-! ## Parts -/

/-- The module that is imported from. -/
def source : Parser Items := leaf .string Lexeme.string?

def fromClause : Parser Items := do
  let word ← keyword "from"
  return word ++ (← source)

/-- A name that is imported or given to something. -/
def localName : Parser Items := expecting (name .identifier)

/-- The name of something exported. -/
def exportedName : Parser Items := orElse localName (expecting (leaf .string Lexeme.string?))

/-- A list in braces, in which a comma may come last. -/
def braces (kind : Kind) (item : Parser Items) : Parser Items := do
  let opening ← symbol "\x7b"
  let list ← maybe (commaList item)
  let trailing ← maybe (symbol ",")
  let closing ← symbol "\x7d"
  node kind (opening ++ list ++ trailing ++ closing)

/-- Everything, under one name. -/
def namespaceAs (kind : Kind) (name : Parser Items) : Parser Items := do
  let star ← symbol "*"
  let word ← keyword "as"
  node kind (star ++ word ++ (← name))

/-! ## Imports -/

def importSpecifier : Parser Items :=
  orElse
    (do
      let imported ← exportedName
      let word ← keyword "as"
      node .importSpecifier (imported ++ word ++ (← localName)))
    (do node .importSpecifier (← localName))

/-- A namespace, or a list of names. -/
def importedNames : Parser Items :=
  orElse (namespaceAs .namespaceImport localName)
    (expecting (braces .namedImports importSpecifier))

def importClause : Parser Items := do
  let names ← orElse importedNames do
    let default ← localName
    let others ← maybe do
      let comma ← symbol ","
      return comma ++ (← importedNames)
    return default ++ others
  node .importClause names

/-- What is said about the module beside its name. -/
def attributes : Parser Items := do
  if ← seesImpliedSemicolon false then fail
  let word ← keyword "with"
  node .importAttribute (word ++ (← Object.object g))

def importStatement : Parser Items := do
  let word ← keyword "import"
  let imported ← orElse source do
    let clause ← importClause
    return clause ++ (← fromClause)
  let attributes ← maybe (attributes g)
  node .importStatement (word ++ imported ++ attributes ++ (← semicolon false))

/-! ## Exports -/

def exportSpecifier : Parser Items := do
  let exported ← exportedName
  let renamed ← maybe do
    let word ← keyword "as"
    return word ++ (← exportedName)
  node .exportSpecifier (exported ++ renamed)

/-- What is exported by name, and where it comes from. -/
def exportedNames : Parser Items := do
  if (← nextChar) == some '*' then
    let names ← orElse (namespaceAs .namespaceExport exportedName) (symbol "*")
    return names ++ (← fromClause)
  else
    let names ← braces .exportClause exportSpecifier
    if ← seesImpliedSemicolon false then return names else return names ++ (← maybe fromClause)

/-- An expression that is exported by default, after its first operand. -/
def exportedValueAfter (operand : Items) : Parser Items := do
  let value ← Expression.operatorsAfter g .statement Operator.lowest operand
  return value ++ (← semicolon true)

/-- An expression that is exported by default. -/
def exportedValue : Parser Items := do
  let value ← g.expression .statement Operator.lowest
  return value ++ (← semicolon true)

/-- What follows the word `export`. -/
def exported (isLast : Bool) : Parser Items := do
  let next ← nextChar
  if next == some '*' || next == some '\x7b' then
    let names ← exportedNames
    return names ++ (← semicolon false)
  else if (← nextWord) == some "default" then
    let word ← keyword "default"
    return word ++ (← Declaration.orExpression g isLast (exportedValue g) (exportedValueAfter g))
  else Declaration.only g

def exportStatement (isLast : Bool) : Parser Items := do
  let decorators ← many (decorator g)
  let word ← keyword "export"
  if decorators.isEmpty then expect false
  let next ← nextChar
  if !decorators.isEmpty && (next == some '*' || next == some '\x7b') then fail
  node .exportStatement (decorators ++ word ++ (← exported g isLast))

/-- Is `export` the start of an export here? It is a name where a statement may end after it or
where an operator follows. -/
def seesExport : Parser Bool := sees do
  let _ ← complete (keyword "export")
  if ← seesImpliedSemicolon true then fail
  match ← nextWord, ← nextChar with
  | some word, _ => if word == "in" || word == "instanceof" then fail
  | none, some '*' => if (← seesSymbol "**") || (← seesSymbol "*=") then fail
  | none, next => if next != some '\x7b' && next != some '@' then fail

end CodeFormatter.JavaScript.Module
