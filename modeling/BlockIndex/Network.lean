import BlockIndex.Text.Quoted

/-!
# Networks

Each network starts its records with a word of its own, the magic.
-/

namespace BlockIndex

/-- A network whose block files can be read. -/
inductive Network where
  | mainnet
  | testnet
  | regtest
  /-- Any other chain that uses the same file layout. -/
  | custom (magic : UInt32)
  deriving DecidableEq, Repr, Inhabited

namespace Network

/-- The word that starts every record. -/
def magic : Network → UInt32
  | .mainnet => 0xD9B4BEF9
  | .testnet => 0x0709110B
  | .regtest => 0xDAB5BFFA
  | .custom magic => magic

/-- The name of a network. -/
def name : Network → String
  | .mainnet => "mainnet"
  | .testnet => "testnet"
  | .regtest => "regtest"
  | .custom magic => "custom(" ++ Text.hexWord magic.toNat ++ ")"

instance : ToString Network := ⟨name⟩

end Network

end BlockIndex
