import BlockIndex.Config

/-!
# Settings

Single options, applied to a configuration one after the other.
-/

namespace BlockIndex

/-- One option and its value. -/
inductive Setting where
  | cachedir (path : Path)
  /-- Keeps the index in memory. -/
  | noCache
  | network (network : Network)
  | startHeight (height : Nat)
  | startHash (hash : Hash)
  | endHeight (height : Nat)
  | endHash (hash : Hash)
  | reorgMargin (blocks : Nat)
  | loadPayload (load : Bool)
  | progressInterval (blocks : Nat)
  deriving DecidableEq, Repr

namespace Config

/-- The configuration with one option set. -/
def set (c : Config) : Setting → Config
  | .cachedir path => { c with cachedir := some path }
  | .noCache => { c with cachedir := none }
  | .network network => { c with network }
  | .startHeight height => { c with startHeight := height }
  | .startHash hash => { c with startHash := some hash }
  | .endHeight height => { c with endHeight := some height }
  | .endHash hash => { c with endHash := some hash }
  | .reorgMargin blocks => { c with reorgMargin := blocks }
  | .loadPayload load => { c with loadPayload := load }
  | .progressInterval blocks => { c with progressInterval := blocks }

/-- The configuration with several options set in order. -/
def setAll (c : Config) (settings : List Setting) : Config := settings.foldl set c

end Config

end BlockIndex
