import CssTheming.Storage.FileSystem

/-!
# Sessions

What commands say, and a session as a value: the files and what has been said so far.
-/

namespace CssTheming

class Console (m : Type → Type) where
  say : String → m Unit
  complain : String → m Unit

structure Session where
  files : FileSystem
  output : String
  complaints : String

namespace Session

def start (files : FileSystem) : Session := ⟨files, "", ""⟩

def advance (s : Session) (r : Except FileFault Unit × FileSystem) : Except FileFault Unit × Session :=
  (r.1, { s with files := r.2 })

instance : Storage (StateM Session) where
  read path := fun s => (s.files.read path, s)
  outline path := fun s => (s.files.outline path, s)
  makeDirectory path := fun s => s.advance (s.files.advance (s.files.makeDirectory path))
  write path text := fun s => s.advance (s.files.advance (s.files.write path text))

instance : Console (StateM Session) where
  say text := fun s => ((), { s with output := s.output ++ text })
  complain text := fun s => ((), { s with complaints := s.complaints ++ text })

instance : Clock (StateM Session) where
  now := pure 0

end Session

end CssTheming
