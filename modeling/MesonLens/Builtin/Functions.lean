import MesonLens.Catalog.Declaration

/-!
# `MesonLens.Builtin.Functions`: the global functions

The functions that every build file can call, with the parameters they share.
-/

set_option autoImplicit false

namespace MesonLens.Builtin

open Declarations

/-- What a build target takes as a source. -/
def sources : String :=
  "str|file|custom_tgt|custom_idx|generated_list|structured_src|extracted_obj|lib"

/-- What a build target links with. -/
def linkTargets : String := "list(lib|custom_tgt|custom_idx)"

/-- Directories of headers. -/
def includes : String := "list(inc|str)"

/-- Arguments of a tool. -/
def argLists : String := "list(str)"

/-- Where a target is installed. -/
def installDir : String := "str|bool|list(str|bool)"

/-- An environment. -/
def environment : String := "env|list(str)|dict(str|list(str))"

/-- A command line. -/
def command : String := "list(str|file|exe|external_program|custom_tgt|custom_idx)"

/-- Values that a summary shows. -/
def summarized : String :=
  "str|bool|int|dep|external_program|list(str|bool|int|dep|external_program)"

/-- Lists of sources. -/
def sourceLists : String := "list(" ++ sources ++ ")"

/-- The keyword parameters of every build target. -/
def targetKeywords : List (Parameter String) :=
  keywords
      ["c_args", "cpp_args", "objc_args", "objcpp_args", "rust_args", "vala_args", "fortran_args",
        "d_args", "cs_args", "cuda_args", "link_args"] argLists
  ++ keywords ["c_pch", "cpp_pch"] "str|file"
  ++ keywords
      ["build_by_default", "install", "implicit_include_directories", "pie",
        "win_subsystem_console"] "bool"
  ++ keywords
      ["build_rpath", "install_rpath", "override_dir", "gnu_symbol_visibility", "rust_crate_type"]
      "str"
  ++ [keyword "dependencies" "list(dep)", keyword "extra_files" "list(str|file)",
       keyword "include_directories" includes, keyword "install_dir" installDir,
       keyword "install_mode" "list(str|int)", keyword "install_tag" "str",
       keyword "link_depends" "list(str|file|custom_tgt|custom_idx)",
       keyword "link_language" "str", keyword "link_whole" linkTargets,
       keyword "link_with" linkTargets, keyword "native" "bool",
       keyword "objects" "list(extracted_obj|file|str)", keyword "sources" sourceLists,
       keyword "name_prefix" "str|list", keyword "name_suffix" "str|list",
       keyword "override_options" "list(str)|dict(str|int|bool)"]

/-- The keyword parameters of every library. -/
def libraryKeywords : List (Parameter String) :=
  targetKeywords
  ++ keywords
      ["version", "soversion", "darwin_versions", "vs_module_defs"] "str|int|file|list(str|int)"
  ++ [keyword "pic" "bool", keyword "prelink" "bool"]

/-- Functions that set up a project and its tests. -/
def projectFunctions : List (Signature String) :=
  [function "project" "void"
      [required "project_name" "str", variadic "language" "str|list(str)",
        keyword "default_options" "list(str)|dict(str|int|bool)",
        keyword "license" "str|list(str)", keyword "license_files" "str|list(str)",
        keyword "meson_version" "str", keyword "subproject_dir" "str",
        keyword "version" "str|file"]]
  ++ (["add_global_arguments", "add_global_link_arguments", "add_project_arguments",
      "add_project_link_arguments"].map fun name =>
      function name "void"
        [variadic "arg" "str|list(str)", requiredKeyword "language" "list(str)",
          keyword "native" "bool"])
  ++ [function "add_project_dependencies" "void"
      [variadic "dependencies" "dep|list(dep)", keyword "language" "list(str)",
        keyword "native" "bool"],
    function "add_languages" "bool"
      [variadic "language" "str|list(str)", keyword "native" "bool",
        keyword "required" "bool|feature"],
    function "add_test_setup" "void"
      [required "setup_name" "str", keyword "env" environment,
        keyword "exclude_suites" "list(str)", keyword "exe_wrapper" "list(str|external_program)",
        keyword "gdb" "bool", keyword "is_default" "bool", keyword "timeout_multiplier" "int"],
    function "alias_target" "alias_tgt" [required "target_name" "str", variadic "dep" "tgt"],
    function "assert" "void" [required "condition" "bool", optional "message" "str"]]
  ++ (["benchmark", "test"].map fun name =>
      function name "void"
        [required "name" "str",
          required "executable" "exe|jar|external_program|file|custom_tgt|custom_idx",
          keyword "args" "list(str|file|tgt|external_program)",
          keyword "depends" "list(build_tgt|custom_tgt)", keyword "env" environment,
          keyword "is_parallel" "bool", keyword "priority" "int", keyword "protocol" "str",
          keyword "should_fail" "bool", keyword "suite" "str|list(str)", keyword "timeout" "int",
          keyword "verbose" "bool", keyword "workdir" "str"])

/-- Functions that declare build targets. -/
def targetFunctions : List (Signature String) :=
  [function "both_libraries" "both_libs"
      ([required "target_name" "str", variadic "source" sources]
       ++ libraryKeywords),
    function "library" "lib"
      ([required "target_name" "str", variadic "source" sources]
       ++ libraryKeywords),
    function "shared_library" "lib"
      ([required "target_name" "str", variadic "source" sources]
       ++ libraryKeywords),
    function "static_library" "lib"
      ([required "target_name" "str", variadic "source" sources]
       ++ libraryKeywords),
    function "shared_module" "lib"
      ([required "target_name" "str", variadic "source" sources]
       ++ targetKeywords),
    function "executable" "exe"
      ([required "target_name" "str", variadic "source" sources]
       ++ targetKeywords
       ++ [keyword "export_dynamic" "bool", keyword "implib" "bool|str",
            keyword "win_subsystem" "str"]),
    function "jar" "jar"
      ([required "target_name" "str", variadic "source" sources]
       ++ targetKeywords
       ++ [keyword "main_class" "str", keyword "java_resources" "structured_src"]),
    function "build_target" "build_tgt"
      ([required "target_name" "str", variadic "source" sources]
       ++ libraryKeywords
       ++ [requiredKeyword "target_type" "str"])]

/-- Functions that make files, dependencies and environments. -/
def valueFunctions : List (Signature String) :=
  [function "configuration_data" "cfg_data" [optional "data" "dict(str|int|bool)"],
    function "configure_file" "file"
      [keyword "capture" "bool", keyword "command" command,
        keyword "configuration" "cfg_data|dict(str|int|bool)", keyword "copy" "bool",
        keyword "depfile" "str", keyword "encoding" "str", keyword "format" "str",
        keyword "input" "list(str|file)", keyword "install" "bool",
        keyword "install_dir" "str|bool", keyword "install_mode" "list(str|int)",
        keyword "install_tag" "str", keyword "output" "str", keyword "output_format" "str"],
    function "custom_target" "custom_tgt"
      [optional "name" "str", keyword "build_always_stale" "bool",
        keyword "build_by_default" "bool", keyword "capture" "bool", keyword "command" command,
        keyword "console" "bool", keyword "depend_files" "list(str|file)",
        keyword "depends" "list(build_tgt|custom_tgt)", keyword "depfile" "str",
        keyword "env" environment, keyword "feed" "bool",
        keyword "input" "list(str|file|custom_tgt|custom_idx|generated_list|extracted_obj)",
        keyword "install" "bool", keyword "install_dir" installDir,
        keyword "install_mode" "list(str|int)", keyword "install_tag" "list(str)",
        requiredKeyword "output" "list(str)"],
    function "declare_dependency" "dep"
      [keyword "compile_args" argLists, keyword "d_import_dirs" includes,
        keyword "dependencies" "list(dep)", keyword "extra_files" "list(str|file)",
        keyword "include_directories" includes, keyword "link_args" argLists,
        keyword "link_whole" linkTargets, keyword "link_with" linkTargets,
        keyword "objects" "list(extracted_obj)", keyword "sources" sourceLists,
        keyword "variables" "dict(str)|list(str)", keyword "version" "str"],
    function "dependency" "dep"
      [variadic "names" "str", keyword "allow_fallback" "bool",
        keyword "default_options" "list(str)|dict(str|int|bool)", keyword "disabler" "bool",
        keyword "fallback" "list(str)|str", keyword "include_type" "str",
        keyword "language" "str", keyword "method" "str", keyword "modules" "list(str)",
        keyword "native" "bool", keyword "not_found_message" "str",
        keyword "required" "bool|feature", keyword "static" "bool",
        keyword "version" "list(str)|str"],
    function "disabler" "disabler" [],
    function "environment" "env"
      [optional "env" "str|list(str)|dict(str|list(str))", keyword "method" "str",
        keyword "separator" "str"]]

/-- Functions that look things up, report and install. -/
def installFunctions : List (Signature String) :=
  (["error", "message", "warning", "debug"].map fun name =>
      function name "void" [variadic "text" "str|int|bool|list(str|int|bool)|dict(str|int|bool)"])
  ++ [function "files" "list(file)" [variadic "file" "str|file"],
    function "find_program" "external_program"
      [variadic "program_name" "str|file", keyword "dirs" "list(str)", keyword "disabler" "bool",
        keyword "native" "bool", keyword "required" "bool|feature",
        keyword "version" "str|list(str)"],
    function "generator" "generator"
      [required "exe" "exe|external_program", keyword "arguments" "list(str)",
        keyword "capture" "bool", keyword "depends" "list(build_tgt|custom_tgt)",
        keyword "depfile" "str", keyword "output" "list(str)"],
    function "get_option" "str|int|bool|feature|list(str)" [required "option_name" "str"],
    function "get_variable" "any" [required "variable_name" "str", optional "default" "any"],
    function "import" "module"
      [required "module_name" "str", keyword "disabler" "bool", keyword "required" "bool|feature"],
    function "include_directories" "inc"
      [variadic "includes" "str|inc", keyword "is_system" "bool"],
    function "install_data" "void"
      [variadic "file" "file|str", keyword "follow_symlinks" "bool", keyword "install_dir" "str",
        keyword "install_mode" "list(str|int)", keyword "install_tag" "str",
        keyword "preserve_path" "bool", keyword "rename" "list(str)",
        keyword "sources" "list(file|str)"],
    function "install_emptydir" "void"
      [variadic "dirpath" "str", keyword "install_mode" "list(str|int)",
        keyword "install_tag" "str"],
    function "install_headers" "void"
      [variadic "file" "file|str", keyword "follow_symlinks" "bool", keyword "install_dir" "str",
        keyword "install_mode" "list(str|int)", keyword "preserve_path" "bool",
        keyword "subdir" "str"],
    function "install_man" "void"
      [variadic "file" "file|str", keyword "install_dir" "str",
        keyword "install_mode" "list(str|int)", keyword "locale" "str"],
    function "install_subdir" "void"
      [required "subdir_name" "str", keyword "exclude_directories" "list(str)",
        keyword "exclude_files" "list(str)", keyword "follow_symlinks" "bool",
        keyword "install_dir" "str", keyword "install_mode" "list(str|int)",
        keyword "install_tag" "str", keyword "strip_directory" "bool"],
    function "install_symlink" "void"
      [required "link_name" "str", requiredKeyword "install_dir" "str",
        requiredKeyword "pointing_to" "str", keyword "install_tag" "str"]]

/-- Functions on variables, commands and subprojects. -/
def languageFunctions : List (Signature String) :=
  [function "is_disabler" "bool" [required "var" "any"],
    function "is_variable" "bool" [required "var" "str"],
    function "join_paths" "str" [variadic "part" "str"],
    function "range" "range"
      [required "start" "int", optional "stop" "int", optional "step" "int"],
    function "run_command" "runresult"
      [variadic "command" "str|file|external_program", keyword "capture" "bool",
        keyword "check" "bool", keyword "env" environment],
    function "run_target" "run_tgt"
      [required "target_name" "str", requiredKeyword "command" command,
        keyword "depends" "list(build_tgt|custom_tgt)", keyword "env" environment],
    function "set_variable" "void" [required "variable_name" "str", required "value" "any"],
    function "structured_sources" "structured_src"
      [required "root" "list(str|file|custom_tgt|custom_idx|generated_list)",
        optional "additional" "dict(str|file|custom_tgt|custom_idx|generated_list)"],
    function "subdir" "void" [required "dir_name" "str", keyword "if_found" "list(dep)"],
    function "subdir_done" "void" [],
    function "subproject" "subproject"
      [required "subproject_name" "str", keyword "default_options" "list(str)|dict(str|int|bool)",
        keyword "required" "bool|feature", keyword "version" "str"],
    function "summary" "void"
      [required "key_or_dict" ("str|dict(" ++ summarized ++ ")"), optional "value" summarized,
        keyword "bool_yn" "bool", keyword "list_sep" "str", keyword "section" "str"],
    function "unset_variable" "void" [required "varname" "str"],
    function "vcs_tag" "custom_tgt"
      [keyword "command" "list(str|file|exe|external_program)", keyword "fallback" "str",
        requiredKeyword "input" "str|file", requiredKeyword "output" "str",
        keyword "replace_string" "str"]]

/-- The global functions. -/
def functions : List (Signature String) :=
  projectFunctions ++ targetFunctions ++ valueFunctions ++ installFunctions ++ languageFunctions

end MesonLens.Builtin
