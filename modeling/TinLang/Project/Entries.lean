import TinLang.Project.Manifest
import TinLang.Toml.Decode
import TinLang.Toml.Document

/-!
# Manifests in TOML

The entries of a TOML document that a manifest is read from.
-/
namespace TinLang.Manifest

/-- A field for the value that a reader finds. -/
def field {α : Type} (name : Text) (read : Toml.Value → Option α) (set : α → Manifest → Manifest) :
    Toml.Field Manifest :=
  ⟨name, fun value manifest => (read value).map fun found => set found manifest⟩

/-- A field for the entries of a table. -/
def group (name : Text) (fields : List (Toml.Field Manifest)) : Toml.Field Manifest :=
  ⟨name, fun value manifest => value.table?.bind fun table => table.decode? fields manifest⟩

/-- A field for a setting of the machine. -/
def setting {α : Type} (name : Text) (read : Toml.Value → Option α)
    (set : α → Settings → Settings) :
    Toml.Field Manifest :=
  field name read fun found manifest => { manifest with settings := set found manifest.settings }

/-- The path of a dependency; it is empty when the table does not name one. -/
def dependencyPath? (value : Toml.Value) : Option Text :=
  value.table?.bind fun table => table.decode? [⟨"path", fun value _ => value.string?⟩] []

/-- The dependencies that a value lists. What is no table lists none. -/
def dependencies? (value : Toml.Value) : Option (List (Text × Text)) :=
  (value.table?.getD []).mapM fun (name, value) => (dependencyPath? value).map fun path =>
    (name, path)

/-- The fields of a manifest. -/
def fields : List (Toml.Field Manifest) :=
  [group "project"
    [field "name" Toml.Value.string? fun name manifest => { manifest with name },
      field "version" Toml.Value.string? fun version manifest => { manifest with version }],
    group "source"
    [field "dirs" Toml.Value.strings? fun found manifest =>
    { manifest with sourceDirectories := found },
      field "files" Toml.Value.strings? fun found manifest =>
        { manifest with sourceFiles := found }],
    field "dependencies" dependencies? fun found manifest =>
      { manifest with dependencies := manifest.dependencies ++ found },
    group "build"
    [field "output" Toml.Value.string? fun output manifest => { manifest with output },
      field "workers" Toml.Value.integer? fun workers manifest => { manifest with workers }],
    group "vm"
    [setting "stack-size" Toml.Value.integer? fun size settings =>
    { settings with stackSize := size },
      setting "heap-limit" Toml.Value.integer? fun limit settings =>
        { settings with heapLimit := limit },
      setting "max-steps" Toml.Value.integer? fun steps settings =>
        { settings with maxSteps := (steps % 0x10000000000000000).toNat },
      setting "trace" Toml.Value.boolean? fun trace settings => { settings with trace },
      field "profile" Toml.Value.boolean? fun profile manifest => { manifest with profile },
      setting "no-files" Toml.Value.boolean? fun noFiles settings => { settings with noFiles }]]

/-- The loader of manifests in TOML. -/
def Loader.toml (processors : Int) : Loader where
  read? text := (Toml.document? text).bind fun table => table.decode? fields {}
  processors

end TinLang.Manifest
