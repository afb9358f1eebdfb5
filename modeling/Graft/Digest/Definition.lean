import Graft.Digest.Basic
import Graft.Native.Basic
import Graft.Tree.Printer

/-!
# Fingerprints of definitions and artifacts

A definition is hashed in its printed form, so its layout does not count. An artifact is hashed as
its definition together with the callees that it is linked to.
-/

namespace Graft

/-- The fingerprint of what a definition computes. -/
def Definition.fingerprint (d : Definition) : Digest :=
  (Record.start .definition ++ Record.string d.text).hash

/-- The fingerprint of a primitive: its name. -/
def Digest.ofNativeName (name : String) : Digest :=
  (Record.start .primitive ++ Record.string name).hash

def Native.fingerprint (n : Native) : Digest := .ofNativeName n.name

/-- The record of an artifact: its source, and the names and fingerprints of its callees. -/
def Record.artifact (source : Digest) (callees : List (String × Digest)) : Record :=
  Record.start .artifact ++ Record.digest source ++ Record.word callees.length ++
    callees.flatMap fun (name, d) => Record.string name ++ Record.digest d

/-- The fingerprint of an artifact. -/
def Digest.ofArtifact (source : Digest) (callees : List (String × Digest)) : Digest :=
  (Record.artifact source callees).hash

end Graft
