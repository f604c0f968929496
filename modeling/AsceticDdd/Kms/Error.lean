/-!
# What can go wrong with keys
-/

namespace AsceticDdd.Kms

inductive SignatureAlgorithm
  | ed25519
  | ecdsaP256
deriving DecidableEq

def SignatureAlgorithm.asStr : SignatureAlgorithm → String
  | .ed25519 => "ed25519"
  | .ecdsaP256 => "ecdsa-p256"

inductive Error
  | kekNotFound (tenantId : String) (keyVersion : Option Nat)
  | noKeyOfVersion (version : Nat)
  | signingKeyNotFound (tenantId : String) (algorithm : SignatureAlgorithm)
  | macKeyNotFound (tenantId purpose : String)
  | malformed (detail : String)
  | forbidden (tenantId operation : String)
  | unsupported (detail : String)
  | transport
  | vault (status : Nat) (method path message : String)
deriving DecidableEq

def signingKeyNotFound (tenantId : String) (algorithm : SignatureAlgorithm) : Error :=
  .signingKeyNotFound tenantId algorithm

def macKeyNotFound (tenantId purpose : String) : Error := .macKeyNotFound tenantId purpose

/-- The name of a tenant's signing key. -/
def SignatureAlgorithm.nameOf (tenantId : String) (algorithm : SignatureAlgorithm) : String :=
  tenantId ++ ".sign." ++ algorithm.asStr

/-- The name of a tenant's MAC key. -/
def macNameOf (tenantId purpose : String) : String := tenantId ++ ".mac." ++ purpose

end AsceticDdd.Kms
