/-!
# Kinds of JavaScript nodes

Every node of a tree has a kind. The names of the kinds are part of every dump.
-/

namespace CodeFormatter.JavaScript

inductive Kind where
  | program | hashBangLine
  | exportStatement | namespaceExport | exportClause | exportSpecifier
  | importStatement | importClause | namespaceImport | namedImports | importSpecifier
  | importAttribute
  | debuggerStatement | expressionStatement | variableDeclaration | lexicalDeclaration
  | variableDeclarator
  | statementBlock | ifStatement | elseClause | switchStatement | switchBody | switchCase
  | switchDefault
  | forStatement | forInStatement | whileStatement | doStatement | tryStatement | catchClause
  | finallyClause | withStatement | breakStatement | continueStatement | returnStatement
  | throwStatement
  | emptyStatement | labeledStatement | statementIdentifier
  | parenthesizedExpression | sequenceExpression | yieldExpression | awaitExpression
  | assignmentExpression | augmentedAssignmentExpression | ternaryExpression | binaryExpression
  | unaryExpression | updateExpression | newExpression | callExpression | arguments
  | memberExpression
  | subscriptExpression | optionalChain | metaProperty | spreadElement
  | object | pair | methodDefinition | shorthandPropertyIdentifier | propertyIdentifier
  | privatePropertyIdentifier | computedPropertyName | array
  | objectPattern | pairPattern | objectAssignmentPattern | shorthandPropertyIdentifierPattern
  | arrayPattern | assignmentPattern | restPattern | formalParameters
  | functionExpression | functionDeclaration | generatorFunction | generatorFunctionDeclaration
  | arrowFunction
  | classExpression | classDeclaration | classHeritage | classBody | fieldDefinition
  | classStaticBlock | decorator
  | identifier | thisName | superName | trueLiteral | falseLiteral | nullLiteral | undefinedName
  | importName | number | string | templateString
  | templateSubstitution | regex
  | jsxElement | jsxSelfClosingElement | jsxOpeningElement | jsxClosingElement | jsxAttribute
  | jsxExpression | jsxNamespaceName | jsxText | htmlCharacterReference
  deriving DecidableEq

namespace Kind

/-- The name of a kind in dumps. -/
def name : Kind → String
  | .program => "program"
  | .hashBangLine => "hash_bang_line"
  | .exportStatement => "export_statement"
  | .namespaceExport => "namespace_export"
  | .exportClause => "export_clause"
  | .exportSpecifier => "export_specifier"
  | .importStatement => "import_statement"
  | .importClause => "import_clause"
  | .namespaceImport => "namespace_import"
  | .namedImports => "named_imports"
  | .importSpecifier => "import_specifier"
  | .importAttribute => "import_attribute"
  | .debuggerStatement => "debugger_statement"
  | .expressionStatement => "expression_statement"
  | .variableDeclaration => "variable_declaration"
  | .lexicalDeclaration => "lexical_declaration"
  | .variableDeclarator => "variable_declarator"
  | .statementBlock => "statement_block"
  | .ifStatement => "if_statement"
  | .elseClause => "else_clause"
  | .switchStatement => "switch_statement"
  | .switchBody => "switch_body"
  | .switchCase => "switch_case"
  | .switchDefault => "switch_default"
  | .forStatement => "for_statement"
  | .forInStatement => "for_in_statement"
  | .whileStatement => "while_statement"
  | .doStatement => "do_statement"
  | .tryStatement => "try_statement"
  | .catchClause => "catch_clause"
  | .finallyClause => "finally_clause"
  | .withStatement => "with_statement"
  | .breakStatement => "break_statement"
  | .continueStatement => "continue_statement"
  | .returnStatement => "return_statement"
  | .throwStatement => "throw_statement"
  | .emptyStatement => "empty_statement"
  | .labeledStatement => "labeled_statement"
  | .statementIdentifier => "statement_identifier"
  | .parenthesizedExpression => "parenthesized_expression"
  | .sequenceExpression => "sequence_expression"
  | .yieldExpression => "yield_expression"
  | .awaitExpression => "await_expression"
  | .assignmentExpression => "assignment_expression"
  | .augmentedAssignmentExpression => "augmented_assignment_expression"
  | .ternaryExpression => "ternary_expression"
  | .binaryExpression => "binary_expression"
  | .unaryExpression => "unary_expression"
  | .updateExpression => "update_expression"
  | .newExpression => "new_expression"
  | .callExpression => "call_expression"
  | .arguments => "arguments"
  | .memberExpression => "member_expression"
  | .subscriptExpression => "subscript_expression"
  | .optionalChain => "optional_chain"
  | .metaProperty => "meta_property"
  | .spreadElement => "spread_element"
  | .object => "object"
  | .pair => "pair"
  | .methodDefinition => "method_definition"
  | .shorthandPropertyIdentifier => "shorthand_property_identifier"
  | .propertyIdentifier => "property_identifier"
  | .privatePropertyIdentifier => "private_property_identifier"
  | .computedPropertyName => "computed_property_name"
  | .array => "array"
  | .objectPattern => "object_pattern"
  | .pairPattern => "pair_pattern"
  | .objectAssignmentPattern => "object_assignment_pattern"
  | .shorthandPropertyIdentifierPattern => "shorthand_property_identifier_pattern"
  | .arrayPattern => "array_pattern"
  | .assignmentPattern => "assignment_pattern"
  | .restPattern => "rest_pattern"
  | .formalParameters => "formal_parameters"
  | .functionExpression => "function_expression"
  | .functionDeclaration => "function_declaration"
  | .generatorFunction => "generator_function"
  | .generatorFunctionDeclaration => "generator_function_declaration"
  | .arrowFunction => "arrow_function"
  | .classExpression => "class"
  | .classDeclaration => "class_declaration"
  | .classHeritage => "class_heritage"
  | .classBody => "class_body"
  | .fieldDefinition => "field_definition"
  | .classStaticBlock => "class_static_block"
  | .decorator => "decorator"
  | .identifier => "identifier"
  | .thisName => "this"
  | .superName => "super"
  | .trueLiteral => "true"
  | .falseLiteral => "false"
  | .nullLiteral => "null"
  | .undefinedName => "undefined"
  | .importName => "import"
  | .number => "number"
  | .string => "string"
  | .templateString => "template_string"
  | .templateSubstitution => "template_substitution"
  | .regex => "regex"
  | .jsxElement => "jsx_element"
  | .jsxSelfClosingElement => "jsx_self_closing_element"
  | .jsxOpeningElement => "jsx_opening_element"
  | .jsxClosingElement => "jsx_closing_element"
  | .jsxAttribute => "jsx_attribute"
  | .jsxExpression => "jsx_expression"
  | .jsxNamespaceName => "jsx_namespace_name"
  | .jsxText => "jsx_text"
  | .htmlCharacterReference => "html_character_reference"

end Kind

end CodeFormatter.JavaScript
