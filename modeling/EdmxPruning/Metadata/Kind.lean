/-! The kinds of elements that make up metadata, known by their local names. -/
namespace EdmxPruning

inductive ElementKind where
  | dataServices
  | schema
  | entityContainer
  | entityType
  | navigationProperty
  | association
  | associationEnd
  | entitySet
  | functionImport
  deriving DecidableEq, Repr

def ElementKind.localName : ElementKind → String
  | .dataServices => "DataServices"
  | .schema => "Schema"
  | .entityContainer => "EntityContainer"
  | .entityType => "EntityType"
  | .navigationProperty => "NavigationProperty"
  | .association => "Association"
  | .associationEnd => "End"
  | .entitySet => "EntitySet"
  | .functionImport => "FunctionImport"

def ElementKind.all : List ElementKind :=
  [.dataServices, .schema, .entityContainer, .entityType, .navigationProperty, .association,
   .associationEnd, .entitySet, .functionImport]

end EdmxPruning
