import Mathlib.Data.Nat.Notation

/-! The kinds of nodes and tokens, in the order of the source. -/
namespace TypeScriptRs.Syntax

inductive Kind
  | unknown | endOfFile | singleLineCommentTrivia | multiLineCommentTrivia | newLineTrivia | whitespaceTrivia
  | conflictMarkerTrivia | nonTextFileMarkerTrivia | numericLiteral | bigIntLiteral | stringLiteral | jsxText
  | jsxTextAllWhiteSpaces | regularExpressionLiteral | noSubstitutionTemplateLiteral | templateHead
  | templateMiddle | templateTail | openBraceToken | closeBraceToken | openParenToken | closeParenToken
  | openBracketToken | closeBracketToken | dotToken | dotDotDotToken | semicolonToken | commaToken
  | questionDotToken | lessThanToken | lessThanSlashToken | greaterThanToken | lessThanEqualsToken
  | greaterThanEqualsToken | equalsEqualsToken | exclamationEqualsToken | equalsEqualsEqualsToken
  | exclamationEqualsEqualsToken | equalsGreaterThanToken | plusToken | minusToken | asteriskToken
  | asteriskAsteriskToken | slashToken | percentToken | plusPlusToken | minusMinusToken | lessThanLessThanToken
  | greaterThanGreaterThanToken | greaterThanGreaterThanGreaterThanToken | ampersandToken | barToken
  | caretToken | exclamationToken | tildeToken | ampersandAmpersandToken | barBarToken | questionToken
  | colonToken | atToken | questionQuestionToken | backtickToken | hashToken | equalsToken | plusEqualsToken
  | minusEqualsToken | asteriskEqualsToken | asteriskAsteriskEqualsToken | slashEqualsToken | percentEqualsToken
  | lessThanLessThanEqualsToken | greaterThanGreaterThanEqualsToken
  | greaterThanGreaterThanGreaterThanEqualsToken | ampersandEqualsToken | barEqualsToken | barBarEqualsToken
  | ampersandAmpersandEqualsToken | questionQuestionEqualsToken | caretEqualsToken | identifier
  | privateIdentifier | breakKeyword | caseKeyword | catchKeyword | classKeyword | constKeyword
  | continueKeyword | debuggerKeyword | defaultKeyword | deleteKeyword | doKeyword | elseKeyword | enumKeyword
  | exportKeyword | extendsKeyword | falseKeyword | finallyKeyword | forKeyword | functionKeyword | ifKeyword
  | importKeyword | inKeyword | instanceOfKeyword | newKeyword | nullKeyword | returnKeyword | superKeyword
  | switchKeyword | thisKeyword | throwKeyword | trueKeyword | tryKeyword | typeOfKeyword | varKeyword
  | voidKeyword | whileKeyword | withKeyword | implementsKeyword | interfaceKeyword | letKeyword
  | packageKeyword | privateKeyword | protectedKeyword | publicKeyword | staticKeyword | yieldKeyword
  | abstractKeyword | accessorKeyword | asKeyword | assertsKeyword | assertKeyword | anyKeyword | asyncKeyword
  | awaitKeyword | booleanKeyword | constructorKeyword | declareKeyword | getKeyword | immediateKeyword
  | inferKeyword | intrinsicKeyword | isKeyword | keyOfKeyword | moduleKeyword | namespaceKeyword | neverKeyword
  | outKeyword | readonlyKeyword | requireKeyword | numberKeyword | objectKeyword | satisfiesKeyword
  | setKeyword | stringKeyword | symbolKeyword | typeKeyword | undefinedKeyword | uniqueKeyword | unknownKeyword
  | usingKeyword | fromKeyword | globalKeyword | bigIntKeyword | overrideKeyword | ofKeyword | deferKeyword
  | qualifiedName | computedPropertyName | typeParameter | parameter | decorator | propertySignature
  | propertyDeclaration | methodSignature | methodDeclaration | classStaticBlockDeclaration | constructor
  | getAccessor | setAccessor | callSignature | constructSignature | indexSignature | typePredicate
  | typeReference | functionType | constructorType | typeQuery | typeLiteral | arrayType | tupleType
  | optionalType | restType | unionType | intersectionType | conditionalType | inferType | parenthesizedType
  | thisType | typeOperator | indexedAccessType | mappedType | literalType | namedTupleMember
  | templateLiteralType | templateLiteralTypeSpan | importType | objectBindingPattern | arrayBindingPattern
  | bindingElement | arrayLiteralExpression | objectLiteralExpression | propertyAccessExpression
  | elementAccessExpression | callExpression | newExpression | taggedTemplateExpression
  | typeAssertionExpression | parenthesizedExpression | functionExpression | arrowFunction | deleteExpression
  | typeOfExpression | voidExpression | awaitExpression | prefixUnaryExpression | postfixUnaryExpression
  | binaryExpression | conditionalExpression | templateExpression | yieldExpression | spreadElement
  | classExpression | omittedExpression | expressionWithTypeArguments | asExpression | nonNullExpression
  | metaProperty | syntheticExpression | satisfiesExpression | templateSpan | semicolonClassElement | block
  | emptyStatement | variableStatement | expressionStatement | ifStatement | doStatement | whileStatement
  | forStatement | forInStatement | forOfStatement | continueStatement | breakStatement | returnStatement
  | withStatement | switchStatement | labeledStatement | throwStatement | tryStatement | debuggerStatement
  | variableDeclaration | variableDeclarationList | functionDeclaration | classDeclaration
  | interfaceDeclaration | typeAliasDeclaration | enumDeclaration | moduleDeclaration | moduleBlock | caseBlock
  | namespaceExportDeclaration | importEqualsDeclaration | importDeclaration | importClause | namespaceImport
  | namedImports | importSpecifier | exportAssignment | exportDeclaration | namedExports | namespaceExport
  | exportSpecifier | missingDeclaration | externalModuleReference | jsxElement | jsxSelfClosingElement
  | jsxOpeningElement | jsxClosingElement | jsxFragment | jsxOpeningFragment | jsxClosingFragment | jsxAttribute
  | jsxAttributes | jsxSpreadAttribute | jsxExpression | jsxNamespacedName | caseClause | defaultClause
  | heritageClause | catchClause | importAttributes | importAttribute | propertyAssignment
  | shorthandPropertyAssignment | spreadAssignment | enumMember | sourceFile | syntaxList
  | jsTypeAliasDeclaration | jsImportDeclaration | notEmittedStatement | partiallyEmittedExpression
  | syntheticReferenceExpression | notEmittedTypeElement | count
deriving DecidableEq, Repr

namespace Kind

theorem ctorIdx_lt (kind : Kind) : kind.ctorIdx < 315 := by
  cases kind <;> exact Nat.le_of_ble_eq_true rfl

end Kind

end TypeScriptRs.Syntax
