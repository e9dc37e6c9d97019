import MarkdownPage.Command.Run
import MarkdownPage.File.Volume

/-!
The command as a function of a volume: what it prints is collected, unless there is no space left
for it.
-/

namespace MarkdownPage.Command

open File

structure Session where
  volume : Volume
  outputFull : Bool := false
  printed : Text := []
  notes : List Line := []
  deriving DecidableEq

namespace Session

def onVolume {α : Type} (action : StateM Volume α) : StateM Session α := fun s =>
  let (a, v) := action.run s.volume
  (a, { s with volume := v })

instance : Access (StateM Session) where
  read p := onVolume (Access.read p)
  write p content := onVolume (Access.write p content)
  leadAlike p q := onVolume (Access.leadAlike p q)

instance : Console (StateM Session) where
  print t := do
    if (← get).outputFull then return .error .noSpace
    modify fun s => { s with printed := s.printed ++ t }
    return .ok ()
  note l := modify fun s => { s with notes := s.notes ++ [l] }

end Session

end MarkdownPage.Command
