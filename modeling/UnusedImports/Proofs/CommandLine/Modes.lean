import UnusedImports.CommandLine.Run
import UnusedImports.CommandLine.Standard
import UnusedImports.Proofs.Files.PathOrder
import UnusedImports.Proofs.Files.Trimming

/-!
Checking and writing agree. Both work through the same files, but writing reads what it wrote
before where several paths lead to one file. One step and then a whole run are described for
either mode: checking names the files that are stale and leaves all alone, writing trims each file
once for every path to it, and both count the same files that are not text.
-/
namespace UnusedImports

namespace CommandLine.Progress

variable (policy : Policy) {progress : Progress} {path : Path}

end CommandLine.Progress

namespace CommandLine

variable {libraries : Libraries}

def Progress.outcome (libraries : Libraries) (check : Bool) (log : String) (progress : Progress) :
    Outcome :=
  Closing.outcome libraries
    ⟨finishFiles check progress, listing progress.listed, [], progress.disk⟩ log

section Endings

variable (libraries) (check : Bool) (log : String) (progress : Progress)

end Endings

section Runs

variable {arguments : List (List UInt8)} {request : Request} {environment : Environment}
  {disk : Disk} {settings : Settings} {files : List Path}

end Runs

end CommandLine

end UnusedImports
