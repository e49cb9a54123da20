/-!
Constants of param.h and fs.h. Sizes are in bytes, counts in blocks.
-/
namespace ColorXv6.Param

def nproc : Nat := 64
def nofile : Nat := 16
def nfile : Nat := 100
def ninode : Nat := 50
def ndev : Nat := 10
def rootDev : Nat := 1
def maxArg : Nat := 32
/-- Most blocks one file-system operation writes. -/
def maxOpBlocks : Nat := 10
/-- Data blocks the header can name; mkfs also uses it as the size of the log. -/
def logSize : Nat := maxOpBlocks * 3
/-- Buffers of the block cache. -/
def nbuf : Nat := maxOpBlocks * 3
def fsSize : Nat := 1000

def bsize : Nat := 512

end ColorXv6.Param
