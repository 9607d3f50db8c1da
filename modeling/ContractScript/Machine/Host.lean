import ContractScript.Hash160

/-!
# What the host provides

- `Service`: the services that a script calls through `SYSCALL`, each by a 32-bit id that is
  derived from its name.
- `NativeContract`: the contracts that are part of the chain, each with a fixed hash.
-/

namespace ContractScript

/-- A service of the host. -/
inductive Service where
  | contractCall | contractCallNative | contractGetCallFlags | contractCreateStandardAccount
  | contractCreateMultisigAccount | contractNativeOnPersist | contractNativePostPersist
  | cryptoCheckSig | cryptoCheckMultisig | iteratorNext | iteratorValue | runtimePlatform
  | runtimeGetNetwork | runtimeGetAddressVersion | runtimeGetTrigger | runtimeGetTime
  | runtimeGetScriptContainer | runtimeGetExecutingScriptHash | runtimeGetCallingScriptHash
  | runtimeGetEntryScriptHash | runtimeCheckWitness | runtimeGetInvocationCounter
  | runtimeGetRandom | runtimeLog | runtimeNotify | runtimeGetNotifications | runtimeGasLeft
  | runtimeBurnGas | runtimeCurrentSigners | storageGetContext | storageGetReadOnlyContext
  | storageAsReadOnly | storageGet | storageFind | storagePut | storageDelete
deriving Repr, DecidableEq, Inhabited

namespace Service

/-- Every `Service`. -/
def all : List Service :=
  [.contractCall, .contractCallNative, .contractGetCallFlags, .contractCreateStandardAccount,
   .contractCreateMultisigAccount, .contractNativeOnPersist, .contractNativePostPersist,
   .cryptoCheckSig, .cryptoCheckMultisig, .iteratorNext, .iteratorValue, .runtimePlatform,
   .runtimeGetNetwork, .runtimeGetAddressVersion, .runtimeGetTrigger, .runtimeGetTime,
   .runtimeGetScriptContainer, .runtimeGetExecutingScriptHash, .runtimeGetCallingScriptHash,
   .runtimeGetEntryScriptHash, .runtimeCheckWitness, .runtimeGetInvocationCounter,
   .runtimeGetRandom, .runtimeLog, .runtimeNotify, .runtimeGetNotifications, .runtimeGasLeft,
   .runtimeBurnGas, .runtimeCurrentSigners, .storageGetContext, .storageGetReadOnlyContext,
   .storageAsReadOnly, .storageGet, .storageFind, .storagePut, .storageDelete]

/-- The name under which a `Service` is registered. -/
def name : Service → String
  | .contractCall => "System.Contract.Call"
  | .contractCallNative => "System.Contract.CallNative"
  | .contractGetCallFlags => "System.Contract.GetCallFlags"
  | .contractCreateStandardAccount => "System.Contract.CreateStandardAccount"
  | .contractCreateMultisigAccount => "System.Contract.CreateMultisigAccount"
  | .contractNativeOnPersist => "System.Contract.NativeOnPersist"
  | .contractNativePostPersist => "System.Contract.NativePostPersist"
  | .cryptoCheckSig => "System.Crypto.CheckSig"
  | .cryptoCheckMultisig => "System.Crypto.CheckMultisig"
  | .iteratorNext => "System.Iterator.Next"
  | .iteratorValue => "System.Iterator.Value"
  | .runtimePlatform => "System.Runtime.Platform"
  | .runtimeGetNetwork => "System.Runtime.GetNetwork"
  | .runtimeGetAddressVersion => "System.Runtime.GetAddressVersion"
  | .runtimeGetTrigger => "System.Runtime.GetTrigger"
  | .runtimeGetTime => "System.Runtime.GetTime"
  | .runtimeGetScriptContainer => "System.Runtime.GetScriptContainer"
  | .runtimeGetExecutingScriptHash => "System.Runtime.GetExecutingScriptHash"
  | .runtimeGetCallingScriptHash => "System.Runtime.GetCallingScriptHash"
  | .runtimeGetEntryScriptHash => "System.Runtime.GetEntryScriptHash"
  | .runtimeCheckWitness => "System.Runtime.CheckWitness"
  | .runtimeGetInvocationCounter => "System.Runtime.GetInvocationCounter"
  | .runtimeGetRandom => "System.Runtime.GetRandom"
  | .runtimeLog => "System.Runtime.Log"
  | .runtimeNotify => "System.Runtime.Notify"
  | .runtimeGetNotifications => "System.Runtime.GetNotifications"
  | .runtimeGasLeft => "System.Runtime.GasLeft"
  | .runtimeBurnGas => "System.Runtime.BurnGas"
  | .runtimeCurrentSigners => "System.Runtime.CurrentSigners"
  | .storageGetContext => "System.Storage.GetContext"
  | .storageGetReadOnlyContext => "System.Storage.GetReadOnlyContext"
  | .storageAsReadOnly => "System.Storage.AsReadOnly"
  | .storageGet => "System.Storage.Get"
  | .storageFind => "System.Storage.Find"
  | .storagePut => "System.Storage.Put"
  | .storageDelete => "System.Storage.Delete"

/-- The `Service` of a name. -/
def ofName? (s : String) : Option Service :=
  all.find? (·.name == s)

/-- The id of a `Service`: the first four bytes of the SHA-256 of its name, read little-endian. -/
def id (s : Service) : Nat :=
  ofLeBytes ((Digest.Sha256.digest (Text.utf8 s.name)).take 4)

end Service

/-- A contract of the chain itself. -/
inductive NativeContract where
  | contractManagement | stdLib | cryptoLib | ledgerContract | neoToken
  | gasToken | policyContract | roleManagement | oracleContract
deriving Repr, DecidableEq, Inhabited

namespace NativeContract

/-- Every native contract. -/
def all : List NativeContract :=
  [.contractManagement, .stdLib, .cryptoLib, .ledgerContract, .neoToken, .gasToken,
   .policyContract, .roleManagement, .oracleContract]

def name : NativeContract → String
  | .contractManagement => "ContractManagement"
  | .stdLib => "StdLib"
  | .cryptoLib => "CryptoLib"
  | .ledgerContract => "LedgerContract"
  | .neoToken => "NeoToken"
  | .gasToken => "GasToken"
  | .policyContract => "PolicyContract"
  | .roleManagement => "RoleManagement"
  | .oracleContract => "OracleContract"

/-- The `Hash160` of a native contract. -/
def hash : NativeContract → Hash160
  | .contractManagement => .literal "0xfffdc93764dbaddd97c48f252a53ea4643faa3fd"
  | .stdLib => .literal "0xacce6fd80d44e1796aa0c2c625e9e4e0ce39efc0"
  | .cryptoLib => .literal "0x726cb6e0cd8628a1350a611384688911ab75f51b"
  | .ledgerContract => .literal "0xda65b600f7124ce6c79950c1772a36403104f2be"
  | .neoToken => .literal "0xef4073a0f2b305a38ec4050e4d3d28bc40ea63f5"
  | .gasToken => .literal "0xd2a4cff31913016155e38e474a2c06d08be276cf"
  | .policyContract => .literal "0xcc5e4edd9f5f8dba8bb65734541df7a1c081c67b"
  | .roleManagement => .literal "0x49cf4e5378ffcd4dec034fd98a174c5491e395e2"
  | .oracleContract => .literal "0xfe924b7cfe89ddd271abaf7210a80a7e11178758"

/-- The native contract of a name. -/
def ofName? (s : String) : Option NativeContract :=
  all.find? (·.name == s)

end NativeContract

end ContractScript
