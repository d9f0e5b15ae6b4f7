/-! Where the commands find their files. A storage says what a path reads, and what a write comes to
and makes of the files. Which paths there are, which of them lead to one file and what is refused is
up to it. -/
namespace EdmxPruning

inductive FileFault where
  | notFound
  | notFolder
  | isFolder
  | nameTooLong
  | invalidPath
  | invalidData
  | refused (reason : String)
  deriving DecidableEq, Repr

def FileFault.message : FileFault → String
  | .notFound => "No such file or directory"
  | .notFolder => "Not a directory"
  | .isFolder => "Is a directory"
  | .nameTooLong => "File name too long"
  | .invalidPath => "file name contained an unexpected NUL byte"
  | .invalidData => "stream did not contain valid UTF-8"
  | .refused reason => reason

abbrev Reader := String → Except FileFault String

structure Storage (σ : Type) where
  read : σ → Reader
  write : σ → String → String → Except FileFault Unit × σ

end EdmxPruning
