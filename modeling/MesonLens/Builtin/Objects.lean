import MesonLens.Catalog.Declaration

/-!
# `MesonLens.Builtin.Objects`: the object types

The types of machines, compilers, dependencies, targets and the like, and their
methods.
-/

set_option autoImplicit false

namespace MesonLens.Builtin

open Declarations

/-- The object types with the type each inherits from. -/
def objectTypes : List (String × Option String) :=
  [("meson", none), ("build_machine", none), ("host_machine", some "build_machine"),
    ("target_machine", some "build_machine"), ("compiler", none), ("dep", none), ("tgt", none),
    ("build_tgt", some "tgt"), ("exe", some "build_tgt"), ("lib", some "build_tgt"),
    ("jar", some "build_tgt"), ("both_libs", some "lib"), ("custom_tgt", some "tgt"),
    ("custom_idx", none), ("run_tgt", some "tgt"), ("alias_tgt", some "tgt"), ("cfg_data", none),
    ("env", none), ("external_program", none), ("extracted_obj", none), ("feature", none),
    ("file", none), ("generated_list", none), ("generator", none), ("inc", none),
    ("module", none), ("range", none), ("runresult", none), ("structured_src", none),
    ("subproject", none)]

/-- The variables every file starts with. -/
def globals : List (String × String) :=
  [("meson", "meson"), ("build_machine", "build_machine"), ("host_machine", "host_machine"),
    ("target_machine", "target_machine")]

/-- The keyword parameters of checks that compile or link something. -/
def checkKeywords : List (Parameter String) :=
  [keyword "args" "list(str)", keyword "dependencies" "list(dep)",
    keyword "include_directories" "list(inc|str)", keyword "no_builtin_args" "bool",
    keyword "prefix" "str|list(str)", keyword "required" "bool|feature"]

/-- The methods of the build system itself. -/
def mesonMethods : List (Signature String) :=
  (["add_dist_script", "add_install_script", "add_postconf_script"].map fun name =>
      method "meson" name "void"
        [required "script_name" "str|file|external_program|exe",
          variadic "arg" "str|file|external_program|exe|custom_tgt|custom_idx",
          keyword "install_tag" "str", keyword "skip_if_destdir" "bool", keyword "dry_run" "bool"])
  ++ [method "meson" "add_devenv" "void"
      [required "env" "env|str|list(str)|dict(str)", keyword "method" "str",
        keyword "separator" "str"]]
  ++ (["backend", "build_root", "current_build_dir", "current_source_dir", "global_build_root",
      "global_source_root", "project_build_root", "project_license_files", "project_name",
      "project_source_root", "project_version", "source_root", "version"].map fun name =>
      method "meson" name "str" [])
  ++ [method "meson" "project_license" "list(str)" []]
  ++ (["can_run_host_binaries", "has_exe_wrapper", "is_cross_build", "is_subproject",
      "is_unity"].map fun name => method "meson" name "bool" [])
  ++ [method "meson" "build_options" "str" [],
    method "meson" "get_compiler" "compiler" [required "language" "str", keyword "native" "bool"],
    method "meson" "get_cross_property" "any"
      [required "propname" "str", optional "fallback_value" "any"],
    method "meson" "get_external_property" "any"
      [required "propname" "str", optional "fallback_value" "any", keyword "native" "bool"],
    method "meson" "has_external_property" "bool"
      [required "propname" "str", keyword "native" "bool"],
    method "meson" "install_dependency_manifest" "void" [required "output_name" "str"],
    method "meson" "override_dependency" "void"
      [required "name" "str", required "dep_object" "dep", keyword "native" "bool",
        keyword "static" "bool"],
    method "meson" "override_find_program" "void"
      [required "progname" "str", required "program" "exe|file|external_program"]]

/-- The methods of machines. -/
def machineMethods : List (Signature String) :=
  (["cpu", "cpu_family", "endian", "kernel", "subsystem", "system"].map fun name =>
      method "build_machine" name "str" [])

/-- The methods of compilers. -/
def compilerMethods : List (Signature String) :=
  [method "compiler" "alignment" "int" ([required "typename" "str"] ++ checkKeywords),
    method "compiler" "check_header" "bool" ([required "header_name" "str"] ++ checkKeywords),
    method "compiler" "compiles" "bool"
      ([required "code" "str|file", keyword "name" "str", keyword "werror" "bool"]
       ++ checkKeywords),
    method "compiler" "compute_int" "int"
      ([required "expr" "str"]
       ++ keywords ["guess", "high", "low"] "int"
       ++ checkKeywords),
    method "compiler" "get_define" "str" ([required "definename" "str"] ++ checkKeywords),
    method "compiler" "has_define" "bool" ([required "definename" "str"] ++ checkKeywords),
    method "compiler" "has_function" "bool" ([required "funcname" "str"] ++ checkKeywords),
    method "compiler" "has_header" "bool" ([required "header_name" "str"] ++ checkKeywords),
    method "compiler" "has_header_symbol" "bool"
      ([required "header" "str", required "symbol" "str"]
       ++ checkKeywords),
    method "compiler" "has_member" "bool"
      ([required "typename" "str", required "membername" "str"]
       ++ checkKeywords),
    method "compiler" "has_members" "bool"
      ([required "typename" "str", variadic "member" "str"]
       ++ checkKeywords),
    method "compiler" "has_type" "bool" ([required "typename" "str"] ++ checkKeywords),
    method "compiler" "links" "bool"
      ([required "code" "str|file", keyword "name" "str", keyword "werror" "bool"]
       ++ checkKeywords),
    method "compiler" "run" "runresult"
      ([required "code" "str|file", keyword "name" "str", keyword "werror" "bool"]
       ++ checkKeywords),
    method "compiler" "sizeof" "int" ([required "typename" "str"] ++ checkKeywords),
    method "compiler" "cmd_array" "list(str)" [],
    method "compiler" "find_library" "dep"
      [required "libname" "str", keyword "dirs" "list(str)", keyword "disabler" "bool",
        keyword "has_headers" "list(str)", keyword "required" "bool|feature",
        keyword "static" "bool"]]
  ++ (["first_supported_argument", "first_supported_link_argument"].map fun name =>
      method "compiler" name "list(str)" [variadic "arg" "str|list(str)"])
  ++ (["get_supported_arguments", "get_supported_link_arguments"].map fun name =>
      method "compiler" name "list(str)" [variadic "arg" "str|list(str)", keyword "checked" "str"])
  ++ [method "compiler" "get_supported_function_attributes" "list(str)"
      [variadic "attribs" "str|list(str)"]]
  ++ (["get_argument_syntax", "get_id", "get_linker_id", "version"].map fun name =>
      method "compiler" name "str" [])
  ++ (["has_argument", "has_link_argument"].map fun name =>
      method "compiler" name "bool" [required "argument" "str", keyword "required" "bool|feature"])
  ++ (["has_multi_arguments", "has_multi_link_arguments"].map fun name =>
      method "compiler" name "bool" [variadic "arg" "str", keyword "required" "bool|feature"])
  ++ [method "compiler" "has_function_attribute" "bool"
      [required "name" "str", keyword "required" "bool|feature"],
    method "compiler" "preprocess" "list(custom_idx)"
      [variadic "source" "str|file|custom_tgt|custom_idx|generated_list",
        keyword "compile_args" "list(str)", keyword "dependencies" "list(dep)",
        keyword "include_directories" "list(inc|str)", keyword "output" "str"],
    method "compiler" "symbols_have_underscore_prefix" "bool" []]

/-- The methods of build targets. -/
def targetMethods : List (Signature String) :=
  [method "build_tgt" "extract_all_objects" "extracted_obj" [keyword "recursive" "bool"],
    method "build_tgt" "extract_objects" "extracted_obj" [variadic "source" "str|file"],
    method "build_tgt" "found" "bool" [],
    method "build_tgt" "full_path" "str" [],
    method "build_tgt" "name" "str" [],
    method "build_tgt" "path" "str" [],
    method "build_tgt" "private_dir_include" "inc" [],
    method "both_libs" "get_shared_lib" "lib" [],
    method "both_libs" "get_static_lib" "lib" [],
    method "custom_tgt" "full_path" "str" [],
    method "custom_tgt" "to_list" "list(custom_idx)" [],
    method "custom_idx" "full_path" "str" []]

/-- The methods of dependencies, settings, programs and results. -/
def plainMethods : List (Signature String) :=
  [method "dep" "as_link_whole" "dep" [],
    method "dep" "as_system" "dep" [optional "value" "str"],
    method "dep" "found" "bool" [],
    method "dep" "get_configtool_variable" "str" [required "var_name" "str"],
    method "dep" "get_pkgconfig_variable" "str"
      [required "var_name" "str", keyword "default" "str", keyword "define_variable" "list(str)"],
    method "dep" "get_variable" "str"
      ([optional "varname" "str"]
       ++ keywords ["cmake", "configtool", "default_value", "internal", "pkgconfig"] "str"
       ++ [keyword "pkgconfig_define" "list(str)"]),
    method "dep" "include_type" "str" [],
    method "dep" "name" "str" [],
    method "dep" "partial_dependency" "dep"
      (keywords ["compile_args", "includes", "link_args", "links", "sources"] "bool"),
    method "dep" "type_name" "str" [],
    method "dep" "version" "str" [],
    method "cfg_data" "get" "str|int|bool"
      [required "varname" "str", optional "default_value" "str|int|bool"],
    method "cfg_data" "get_unquoted" "str|int|bool"
      [required "varname" "str", optional "default_value" "str|int|bool"],
    method "cfg_data" "has" "bool" [required "varname" "str"],
    method "cfg_data" "keys" "list(str)" [],
    method "cfg_data" "merge_from" "void" [required "other" "cfg_data"]]
  ++ (["set", "set10", "set_quoted"].map fun name =>
      method "cfg_data" name "void"
        [required "varname" "str", required "value" "str|int|bool", keyword "description" "str"])
  ++ (["append", "prepend", "set"].map fun name =>
      method "env" name "void"
        [required "variable" "str", variadic "value" "str", keyword "separator" "str"])
  ++ [method "env" "unset" "void" [required "variable" "str"],
    method "external_program" "found" "bool" [],
    method "external_program" "full_path" "str" [],
    method "external_program" "path" "str" [],
    method "external_program" "version" "str" []]
  ++ (["allowed", "auto", "disabled", "enabled"].map fun name => method "feature" name "bool" [])
  ++ (["disable_auto_if", "enable_auto_if"].map fun name =>
      method "feature" name "feature" [required "value" "bool"])
  ++ (["disable_if", "enable_if", "require"].map fun name =>
      method "feature" name "feature" [required "value" "bool", keyword "error_message" "str"])
  ++ [method "file" "full_path" "str" [],
    method "generator" "process" "generated_list"
      [variadic "source" "str|file|custom_tgt|custom_idx|generated_list",
        keyword "env" "env|list(str)|dict(str)", keyword "extra_args" "list(str)",
        keyword "preserve_path_from" "str"],
    method "runresult" "compiled" "bool" [],
    method "runresult" "returncode" "int" [],
    method "runresult" "stderr" "str" [],
    method "runresult" "stdout" "str" [],
    method "subproject" "found" "bool" [],
    method "subproject" "get_variable" "any"
      [required "var_name" "str", optional "fallback" "any"],
    method "module" "found" "bool" []]

/-- The methods of the object types. -/
def objectMethods : List (Signature String) :=
  mesonMethods ++ machineMethods ++ compilerMethods ++ targetMethods ++ plainMethods

end MesonLens.Builtin
