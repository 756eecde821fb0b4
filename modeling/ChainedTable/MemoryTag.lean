set_option autoImplicit false

namespace ChainedTable

structure MemoryTag where
  name : String
  deriving DecidableEq

def MemoryTag.symbol : MemoryTag := ⟨"Symbol"⟩
def MemoryTag.classes : MemoryTag := ⟨"Class"⟩
def MemoryTag.sharedClasses : MemoryTag := ⟨"Shared class space"⟩
def MemoryTag.modules : MemoryTag := ⟨"Module"⟩
def MemoryTag.code : MemoryTag := ⟨"Code"⟩
def MemoryTag.gc : MemoryTag := ⟨"GC"⟩
def MemoryTag.compiler : MemoryTag := ⟨"Compiler"⟩
def MemoryTag.tracing : MemoryTag := ⟨"Tracing"⟩
def MemoryTag.internal : MemoryTag := ⟨"Internal"⟩

instance : Inhabited MemoryTag := ⟨.internal⟩

end ChainedTable
