import CssTheming.Json.Decode
import CssTheming.Usage

/-!
# Usage files in JSON
-/

namespace CssTheming

def Usage.ofJson? (j : Json) : Option Usage := do
  match ← Json.fields? ["selectors", "property", "originalValue", "key", "path"] j with
  | [some selectors, some property, some originalValue, some key, some path] =>
    return ⟨← Json.strings? selectors, ← Json.string? property, ← Json.string? originalValue, ← Json.string? key,
      ← Json.string? path⟩
  | _ => none

def Usage.toJson (u : Usage) : Json :=
  .record [("selectors", .texts u.selectors), ("property", .text u.property), ("originalValue", .text u.originalValue),
    ("key", .text u.key), ("path", .text u.path)]

def UsageFile.ofJson? (j : Json) : Option UsageFile := do
  match ← Json.fields? ["path", "usages"] j with
  | [some path, some usages] => return ⟨← Json.string? path, ← (← Json.items? usages).mapM Usage.ofJson?⟩
  | _ => none

def UsageFile.toJson (f : UsageFile) : Json :=
  .record [("path", .text f.path), ("usages", .array (f.usages.map Usage.toJson))]

end CssTheming
