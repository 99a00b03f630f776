import MesonLens.Builtin.Functions

/-!
# `MesonLens.Builtin.Modules`: what can be imported

The modules, the object types they bring, and their methods.
-/

set_option autoImplicit false

namespace MesonLens.Builtin

open Declarations

/-- The modules with their object types. -/
def modules : List (String × String) :=
  [("cmake", "cmake_module"), ("fs", "fs_module"), ("gnome", "gnome_module"),
    ("i18n", "i18n_module"), ("keyval", "keyval_module"), ("pkgconfig", "pkgconfig_module"),
    ("python", "python_module"), ("sourceset", "sourceset_module"), ("windows", "windows_module")]

/-- The object types that modules bring. -/
def moduleTypes : List (String × Option String) :=
  (modules.map fun (_, object) => (object, some "module"))
  ++ [("python_installation", some "external_program"), ("cmake_subproject", none),
      ("cmake_subproject_options", none), ("sourceset", none), ("source_configuration", none)]

/-- The methods of the file system module. -/
def fsMethods : List (Signature String) :=
  (["exists", "is_absolute", "is_dir", "is_file", "is_symlink"].map fun name =>
      method "fs_module" name "bool" [required "file" "str|file"])
  ++ (["as_posix", "expanduser", "name", "parent", "stem"].map fun name =>
      method "fs_module" name "str" [required "file" "str|file"])
  ++ [method "fs_module" "copyfile" "custom_tgt"
      [required "src" "str|file", optional "dst" "str", keyword "install" "bool",
        keyword "install_dir" "str", keyword "install_mode" "list(str|int)",
        keyword "install_tag" "str"],
    method "fs_module" "hash" "str" [required "file" "str|file", required "hash_algorithm" "str"],
    method "fs_module" "is_samepath" "bool"
      [required "path1" "str|file", required "path2" "str|file"],
    method "fs_module" "read" "str" [required "file" "str|file", keyword "encoding" "str"],
    method "fs_module" "relative_to" "str"
      [required "file" "str|file", required "start" "str|file"],
    method "fs_module" "replace_suffix" "str"
      [required "file" "str|file", required "suffix" "str"],
    method "fs_module" "size" "int" [required "file" "str|file"]]

/-- The methods of the desktop module. -/
def gnomeMethods : List (Signature String) :=
  [method "gnome_module" "compile_resources" "list(custom_tgt)"
      [required "id" "str", required "input_file" "str|file", keyword "c_name" "str",
        keyword "dependencies" "list(file|custom_tgt|custom_idx)", keyword "export" "bool",
        keyword "extra_args" "list(str)", keyword "gresource_bundle" "bool",
        keyword "install" "bool", keyword "install_dir" "str", keyword "source_dir" "list(str)"],
    method "gnome_module" "compile_schemas" "custom_tgt"
      [keyword "build_by_default" "bool", keyword "depend_files" "list(str|file)"],
    method "gnome_module" "gdbus_codegen" "list(custom_tgt)"
      [required "name" "str", optional "source" "str|file", keyword "annotations" "list(str)",
        keyword "autocleanup" "str", keyword "docbook" "str", keyword "extra_args" "list(str)",
        keyword "install_header" "bool", keyword "install_dir" "str",
        keyword "interface_prefix" "str", keyword "namespace" "str",
        keyword "object_manager" "bool"],
    method "gnome_module" "generate_gir" "list(custom_tgt)"
      [variadic "target" "exe|lib", keyword "dependencies" "list(dep)",
        keyword "export_packages" "list(str)", keyword "extra_args" "list(str)",
        keyword "header" "list(str)", keyword "identifier_prefix" "list(str)",
        keyword "includes" "list(str|custom_tgt)", keyword "install" "bool",
        keyword "namespace" "str", keyword "nsversion" "str",
        keyword "sources" "list(str|file|custom_tgt|custom_idx|generated_list)",
        keyword "symbol_prefix" "list(str)"],
    method "gnome_module" "genmarshal" "list(custom_tgt)"
      [required "basename" "str", keyword "extra_args" "list(str)",
        keyword "install_header" "bool", keyword "prefix" "str",
        keyword "sources" "list(str|file)"]]
  ++ (["mkenums", "mkenums_simple"].map fun name =>
      method "gnome_module" name "list(custom_tgt)"
        [required "name" "str", keyword "c_template" "str|file", keyword "h_template" "str|file",
          keyword "identifier_prefix" "str", keyword "install_header" "bool",
          keyword "sources" "list(str|file|custom_tgt|custom_idx)", keyword "symbol_prefix" "str"])
  ++ [method "gnome_module" "post_install" "void"
      (keywords
           ["glib_compile_schemas", "gio_querymodules_dummy", "gtk_update_icon_cache",
             "update_desktop_database"] "bool"
       ++ [keyword "gio_querymodules" "list(str)"]),
    method "gnome_module" "yelp" "void"
      [required "project_id" "str", variadic "source" "str", keyword "languages" "list(str)",
        keyword "media" "list(str)", keyword "sources" "list(str)",
        keyword "symlink_media" "bool"]]

/-- The methods of the interpreter module and its installations. -/
def pythonMethods : List (Signature String) :=
  [method "python_module" "find_installation" "python_installation"
      [optional "name_or_path" "str", keyword "disabler" "bool", keyword "modules" "list(str)",
        keyword "pure" "bool", keyword "required" "bool|feature"],
    method "python_installation" "dependency" "dep"
      [keyword "disabler" "bool", keyword "embed" "bool", keyword "required" "bool|feature",
        keyword "static" "bool"],
    method "python_installation" "extension_module" "lib"
      [required "module_name" "str", variadic "source" sources,
        keyword "dependencies" "list(dep)", keyword "include_directories" "list(inc|str)",
        keyword "install" "bool", keyword "link_with" "list(lib|custom_tgt|custom_idx)",
        keyword "subdir" "str"],
    method "python_installation" "get_install_dir" "str"
      [keyword "pure" "bool", keyword "subdir" "str"],
    method "python_installation" "get_path" "str"
      [required "path_name" "str", optional "fallback" "any"],
    method "python_installation" "get_variable" "str"
      [required "variable_name" "str", optional "fallback" "any"],
    method "python_installation" "has_path" "bool" [required "path_name" "str"],
    method "python_installation" "has_variable" "bool" [required "variable_name" "str"],
    method "python_installation" "install_sources" "void"
      [variadic "file" "str|file", keyword "install_tag" "str", keyword "preserve_path" "bool",
        keyword "pure" "bool", keyword "subdir" "str"],
    method "python_installation" "language_version" "str" []]

/-- The methods of the module for projects of another build system. -/
def cmakeMethods : List (Signature String) :=
  [method "cmake_module" "subproject" "cmake_subproject"
      [required "subproject_name" "str", keyword "options" "cmake_subproject_options",
        keyword "required" "bool|feature"],
    method "cmake_module" "subproject_options" "cmake_subproject_options" [],
    method "cmake_module" "configure_package_config_file" "void"
      [keyword "configuration" "cfg_data", keyword "input" "str|file",
        keyword "install_dir" "str", keyword "name" "str"],
    method "cmake_module" "write_basic_package_version_file" "void"
      [keyword "arch_independent" "bool", keyword "compatibility" "str",
        keyword "install_dir" "str", keyword "name" "str", keyword "version" "str"],
    method "cmake_subproject" "dependency" "dep" [required "target" "str"],
    method "cmake_subproject" "found" "bool" [],
    method "cmake_subproject" "get_variable" "any"
      [required "var_name" "str", optional "fallback" "any"],
    method "cmake_subproject" "include_directories" "inc" [required "target" "str"],
    method "cmake_subproject" "target" "tgt" [required "target" "str"],
    method "cmake_subproject" "target_list" "list(str)" [],
    method "cmake_subproject" "target_type" "str" [required "target" "str"],
    method "cmake_subproject_options" "add_cmake_defines" "void"
      [variadic "defines" "dict(str|int|bool)"],
    method "cmake_subproject_options" "set_install" "void"
      [required "install" "bool", keyword "target" "str"],
    method "cmake_subproject_options" "set_override_option" "void"
      [required "opt" "str", required "val" "str", keyword "target" "str"],
    method "cmake_subproject_options" "append_compile_args" "void"
      [required "language" "str", variadic "arg" "str"],
    method "cmake_subproject_options" "append_link_args" "void" [variadic "arg" "str"]]

/-- The methods of source sets. -/
def sourceSetMethods : List (Signature String) :=
  [method "sourceset_module" "source_set" "sourceset" [],
    method "sourceset" "add" "void"
      [variadic "source" "str|file|generated_list|custom_tgt|custom_idx|dep",
        keyword "if_true" "list(str|file|generated_list|custom_tgt|custom_idx|dep)",
        keyword "if_false" "list(str|file|generated_list|custom_tgt|custom_idx)",
        keyword "when" "list(str|dep)"],
    method "sourceset" "add_all" "void"
      [variadic "source_set" "sourceset", keyword "if_true" "list(sourceset)",
        keyword "when" "list(str|dep)"],
    method "sourceset" "all_dependencies" "list(dep)" [],
    method "sourceset" "all_sources" "list(file|custom_tgt|custom_idx|generated_list)" [],
    method "sourceset" "apply" "source_configuration"
      [required "config" "cfg_data|dict(str|int|bool)", keyword "strict" "bool"],
    method "source_configuration" "dependencies" "list(dep)" [],
    method "source_configuration" "sources" "list(file|custom_tgt|custom_idx|generated_list)" []]

/-- The methods of the modules for packages, languages and resources. -/
def packageMethods : List (Signature String) :=
  [method "pkgconfig_module" "generate" "void"
      [optional "library" "lib", keyword "description" "str", keyword "extra_cflags" "list(str)",
        keyword "filebase" "str", keyword "install_dir" "str",
        keyword "libraries" "list(lib|dep|str)", keyword "libraries_private" "list(lib|dep|str)",
        keyword "name" "str", keyword "requires" "list(str|dep|lib)",
        keyword "requires_private" "list(str|dep|lib)", keyword "subdirs" "list(str)",
        keyword "url" "str", keyword "variables" "dict(str)|list(str)", keyword "version" "str"],
    method "i18n_module" "gettext" "list(custom_tgt)"
      [required "packagename" "str", keyword "args" "list(str)", keyword "data_dirs" "list(str)",
        keyword "install" "bool", keyword "install_dir" "str", keyword "languages" "list(str)",
        keyword "preset" "str"],
    method "i18n_module" "merge_file" "custom_tgt"
      [keyword "args" "list(str)", keyword "data_dirs" "list(str)",
        keyword "input" "list(str|file|custom_tgt|custom_idx)", keyword "install" "bool",
        keyword "install_dir" "str", keyword "output" "str", keyword "po_dir" "str",
        keyword "type" "str"],
    method "i18n_module" "itstool_join" "custom_tgt"
      [keyword "its_files" "list(str|file)", keyword "mo_targets" "list(custom_tgt)",
        keyword "input" "list(str|file)", keyword "output" "str", keyword "install" "bool",
        keyword "install_dir" "str"],
    method "keyval_module" "load" "dict(str)" [required "file" "str|file"],
    method "windows_module" "compile_resources" "list(custom_tgt)"
      [variadic "libs" "str|file|custom_tgt|custom_idx", keyword "args" "list(str)",
        keyword "depend_files" "list(str|file)", keyword "depends" "list(build_tgt|custom_tgt)",
        keyword "include_directories" "list(inc|str)"]]

/-- The methods that modules bring. -/
def moduleMethods : List (Signature String) :=
  fsMethods ++ gnomeMethods ++ pythonMethods ++ cmakeMethods ++ sourceSetMethods ++ packageMethods

end MesonLens.Builtin
