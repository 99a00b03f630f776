import MesonLens.Catalog.Declaration

/-!
# `MesonLens.Builtin.Primitives`: methods of the built-in types

The methods of strings, numbers, truth values, lists and dictionaries. What a
list or dictionary gives out depends on what it holds, which the analysis knows.
-/

set_option autoImplicit false

namespace MesonLens.Builtin

open Declarations

/-- The methods of strings. -/
def stringMethods : List (Signature String) :=
  [method "str" "contains" "bool" [required "fragment" "str"],
    method "str" "endswith" "bool" [required "fragment" "str"],
    method "str" "format" "str" [variadic "fmt" "int|bool|str"],
    method "str" "join" "str" [variadic "strings" "str|list(str)"],
    method "str" "replace" "str" [required "old" "str", required "new" "str"],
    method "str" "split" "list(str)" [optional "split_string" "str"],
    method "str" "splitlines" "list(str)" [],
    method "str" "startswith" "bool" [required "fragment" "str"],
    method "str" "strip" "str" [optional "strip_chars" "str"],
    method "str" "substring" "str" [optional "start" "int", optional "end" "int"],
    method "str" "to_int" "int" [],
    method "str" "to_lower" "str" [],
    method "str" "to_upper" "str" [],
    method "str" "underscorify" "str" [],
    method "str" "version_compare" "bool" [required "comparison" "str"]]

/-- The methods of the other built-in types. -/
def valueMethods : List (Signature String) :=
  [method "int" "is_even" "bool" [],
    method "int" "is_odd" "bool" [],
    method "int" "to_string" "str" [keyword "fill" "int"],
    method "bool" "to_int" "int" [],
    method "bool" "to_string" "str" [optional "true_str" "str", optional "false_str" "str"],
    method "list" "contains" "bool" [required "item" "any"],
    method "list" "get" "any" [required "index" "int", optional "fallback" "any"],
    method "list" "length" "int" [],
    method "dict" "get" "any" [required "key" "str", optional "fallback" "any"],
    method "dict" "has_key" "bool" [required "key" "str"],
    method "dict" "keys" "list(str)" []]

end MesonLens.Builtin
