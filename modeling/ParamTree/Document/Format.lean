import ParamTree.Files.Path

/-!
# Document formats

Documents are written in JSON or YAML. A file shows its format by the extension
of its name.
-/

namespace ParamTree

/-- A format of documents. -/
inductive DocumentFormat where
  | json
  | yaml
deriving DecidableEq, Repr

namespace DocumentFormat

/-- The format that a file name's extension stands for, in letters of either case. -/
def ofExtension? (extension : String) : Option DocumentFormat :=
  let letters := extension.toList.map Char.toLower
  if letters = ['j', 's', 'o', 'n'] then some .json
  else if letters = ['y', 'a', 'm', 'l'] || letters = ['y', 'm', 'l'] then some .yaml
  else none

/-- The format of the document at a path. -/
def ofPath? (path : RawText) : Option DocumentFormat :=
  ((Files.extension? path).bind RawText.text?).bind ofExtension?

/-- The format with a name. -/
def ofName? (name : String) : Option DocumentFormat :=
  if name = "json" then some .json else if name = "yaml" then some .yaml else none

end DocumentFormat

end ParamTree
