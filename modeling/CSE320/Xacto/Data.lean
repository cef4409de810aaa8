import CSE320.Xacto.Transaction

namespace CSE320.Xacto

-- The prefix field repeats the content pointer for debugging and is left out.
structure Blob where
  refcnt : Int
  size : Nat
  content : Option (List (BitVec 8))
deriving DecidableEq, Repr

structure Version where
  creator : Ptr
  blob : Option Ptr
deriving DecidableEq, Repr

-- The transaction manager together with the blobs and versions that have not
-- been freed. Numbers are not used again.
structure World where
  manager : Manager
  blobs : Ptr → Option Blob
  freshBlob : Nat
  versions : List (Ptr × Version)
  freshVersion : Nat

def World.start : World where
  manager := transInit
  blobs := fun _ => none
  freshBlob := 0
  versions := []
  freshVersion := 0

-- The content is copied up to the given size.
def newBlob (content : Option (List (BitVec 8))) (size : Nat) : Blob where
  refcnt := 1
  size := size
  content := content.map (·.take size)

def blobCreate (w : World) (content : Option (List (BitVec 8))) (size : Nat) : Ptr × World :=
  (w.freshBlob, { w with
    blobs := fun b => if b = w.freshBlob then some (newBlob content size) else w.blobs b
    freshBlob := w.freshBlob + 1 })

def blobUnref (w : World) : Option Ptr → Except Stop World
  | none => .ok w
  | some bp =>
    match w.blobs bp with
    | none => .error .fault
    | some blob =>
      let left := if blob.refcnt - 1 = 0 then none else some { blob with refcnt := blob.refcnt - 1 }
      .ok { w with blobs := fun b => if b = bp then left else w.blobs b }

-- A NULL creator is replaced by a new transaction.
def versionCreator (m : Manager) : Option Ptr → Except Stop (Ptr × Manager)
  | some tp => .ok (tp, m)
  | none => transCreate m

def versionCreate (w : World) (tp : Option Ptr) (bp : Option Ptr) : Except Stop (Ptr × World) := do
  let (tp, manager) ← versionCreator w.manager tp
  let manager ← transRef manager (some tp)
  return (w.freshVersion, { w with
    manager
    versions := (w.freshVersion, { creator := tp, blob := bp }) :: w.versions
    freshVersion := w.freshVersion + 1 })

def versionDispose (w : World) : Option Ptr → Except Stop World
  | none => .ok w
  | some vp =>
    match w.versions.lookup vp with
    | none => .error .fault
    | some version => do
      let manager ← transUnref w.manager (some version.creator)
      let w ← blobUnref { w with manager } version.blob
      return { w with versions := w.versions.eraseP (·.1 = vp) }

inductive Call where
  | create
  | ref (tp : Option Ptr)
  | unref (tp : Option Ptr)
  | addDependency (tp dtp : Option Ptr)
  | commit (tp : Ptr)
  | abort (tp : Ptr)
  | blobCreate (content : Option (List (BitVec 8))) (size : Nat)
  | versionCreate (tp bp : Option Ptr)
  | versionDispose (vp : Option Ptr)

-- One call that runs to its end before the next one starts.
def World.exec (w : World) : Call → Except Stop World
  | .create => do
    let (_, manager) ← transCreate w.manager
    return { w with manager }
  | .ref tp => do
    let manager ← transRef w.manager tp
    return { w with manager }
  | .unref tp => do
    let manager ← transUnref w.manager tp
    return { w with manager }
  | .addDependency tp dtp => do
    let manager ← transAddDependency w.manager tp dtp
    return { w with manager }
  | .commit tp => do
    let (_, manager) ← transCommit w.manager tp
    return { w with manager }
  | .abort tp => do
    let (_, manager) ← transAbort w.manager tp
    return { w with manager }
  | .blobCreate content size => .ok (Xacto.blobCreate w content size).2
  | .versionCreate tp bp => do
    let (_, w) ← Xacto.versionCreate w tp bp
    return w
  | .versionDispose vp => Xacto.versionDispose w vp

end CSE320.Xacto
