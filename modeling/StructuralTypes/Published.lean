import StructuralTypes.Fault

namespace StructuralTypes.Published

def types : List String :=
  ["TypeNode", "PrimitiveType", "LiteralType", "FieldType", "IndexSignature", "ObjectType",
    "ArrayType", "TupleElement", "TupleType", "UnionType", "MappedType", "TypeReference", "STRING",
    "NUMBER", "BOOLEAN", "BIGINT", "SYMBOL", "NULL", "UNDEFINED", "ANY", "UNKNOWN", "NEVER",
    "TypeEnvironment", "EMPTY_ENVIRONMENT", "create_environment", "widen_readonly", "fresh_copy",
    "materialize", "readonly_of", "partial_of", "required_of", "pick", "omit", "record_of",
    "union_of", "format_type"]

def engine : List String :=
  ["AssignabilityChecker", "AssignabilityVerdict", "PathSegment", "ReasonKind", "assignable",
    "format_path", "is_assignable"]

def narrowing : List String :=
  ["NarrowingContext", "NarrowingFailure", "NarrowingResult", "NarrowingStrategy",
    "discriminant_fields", "exclude", "narrow"]

def diagnostics : List String :=
  ["Diagnostic", "DiagnosticCode", "DiagnosticCollector", "Severity"]

def errors : List String :=
  ["ShapeCheckError", "MalformedTypeError", "EmptyUnionError", "DuplicateFieldError",
    "InvalidLiteralError", "InvalidIndexKeyError", "InvalidTupleError", "InvalidMappedTypeError",
    "UnresolvedReferenceError", "CyclicAliasError", "InvalidNarrowingContextError"]

/-- The names that the interface publishes. -/
def names : List String :=
  types ++ engine ++ narrowing ++ diagnostics ++ errors ++
    ["EngineConfig", "DEFAULT_CONFIG", "SyncReport", "companion_flags", "check_all", "__version__"]

/-- The names that can be asked for although they are not published: the parts of the interface, its
own tables and what every module has. -/
def hidden : List String :=
  ["types", "engine", "narrowing", "diagnostics", "errors", "config", "synchronizer", "_TYPES",
    "_ENGINE", "_NARROWING", "_DIAGNOSTICS", "_ERRORS", "__all__", "__getattr__", "__name__",
    "__doc__", "__package__", "__loader__", "__spec__", "__path__", "__file__", "__cached__",
    "__builtins__", "__dict__", "__class__"]

/-- Whether a name that the interface has is published. -/
def isPublished (name : String) : Except Fault Bool :=
  if names.contains name then .ok true
  else if hidden.contains name then .ok false
  else .error (.noSuchName name)

end StructuralTypes.Published
