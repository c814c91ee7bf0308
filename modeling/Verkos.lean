import Verkos.Stam.Cow
import Verkos.Stam.Copying
import Verkos.Stam.Exit
import Verkos.Lib.Emit
import Verkos.Sav.Arm
import Verkos.Sav.Check
import Verkos.Sav.Checked
import Verkos.Sav.Gen
import Verkos.Sav.Layout
import Verkos.Sav.Manifest
import Verkos.Lib.Trace
import Verkos.Sav.Confine
import Verkos.Lib.Serial
import Verkos.Stam.Agreement
import Verkos.Stam.Descriptors
import Verkos.Stam.Handout
import Verkos.Stam.PipeWait
import Verkos.Sav.WriteElf
import Verkos.Stam.Elf
import Verkos.Stam.Load
import Verkos.Stam.Enforce
import Verkos.Sav.Args
import Verkos.Stam.Arguments
import Verkos.Lib.Digits
import Verkos.Stam.Cpio
import Verkos.Stam.Initrd
import Verkos.Stam.Zombies
import Verkos.Lib.Fold
import Verkos.Urverk.Boot
import Verkos.Urverk.Order
import Verkos.Urverk.Off
import Verkos.Sav.Use
import Verkos.Lib.Bits
import Verkos.Lib.Canonical
import Verkos.Vgzip.Deflate
import Verkos.Vgzip.Huff
import Verkos.Vgzip.Matches
import Verkos.Vgzip.RoundTrip
import Verkos.Vtar.Archive
import Verkos.Vtar.RoundTrip
import Verkos.Lib.Steps
import Verkos.Vdhcp.Client
import Verkos.Vdhcp.Leases
import Verkos.Lib.Bytes
import Verkos.Lib.Crc
import Verkos.Stam.Gpt
import Verkos.Vpart.Gpt
import Verkos.Vpart.Sizes
import Verkos.Vpart.Valid
import Verkos.Lib.OnesComplement
import Verkos.Stam.Datagrams
import Verkos.Stam.Delivery
import Verkos.Lib.Memory
import Verkos.Stam.Fdt
import Verkos.Vboot.Fdtgen
import Verkos.Vboot.ReadBack
import Verkos.Lib.Shared
import Verkos.Vlogin.Account
import Verkos.Vlogin.Effects
import Verkos.Vlogin.Hashes
import Verkos.Vlogin.Passwords
import Verkos.Lib.Interleaved
import Verkos.Vlogin.Serial
import Verkos.Vlogin.InOrder
import Verkos.Vpk.Fs
import Verkos.Vpk.Install
import Verkos.Vpk.Merge
import Verkos.Vpk.Ownership
import Verkos.Lib.Fields
import Verkos.Lib.Moves
import Verkos.Sav.Buffer
import Verkos.Sav.Copies
import Verkos.Sav.Places
import Verkos.Sav.Ranges
import Verkos.Sav.Runtime
import Verkos.Sav.Bodies
import Verkos.Sav.Match
import Verkos.Lib.Ring
import Verkos.Stam.Fifo
import Verkos.Stam.Fork
import Verkos.Lib.Blocks
import Verkos.Stam.Catalog
import Verkos.Stam.FatWalk
import Verkos.Stam.Getdents
import Verkos.Stam.Readonly
import Verkos.Stam.FailedCalls
import Verkos.Stam.Names
import Verkos.Stam.Records
import Verkos.Stam.Tree
import Verkos.Stam.TreeSteps
import Verkos.Stam.FatCalls
import Verkos.Stam.NameRuns
import Verkos.Vmkfs.Format
import Verkos.Vmkfs.Geometry
import Verkos.Stam.Cycle
import Verkos.Stam.Sequence
import Verkos.Stam.PageTable
import Verkos.Stam.Pointers
import Verkos.Stam.Signal
import Verkos.Stam.LoadSafety
import Verkos.Lib.Indexed
import Verkos.Lib.Rfc1951
import Verkos.Vgzip.Arrays
import Verkos.Vgzip.Gunzip
import Verkos.Lib.Kraft
import Verkos.Lib.Pieces
import Verkos.Lib.Postorder
import Verkos.Lib.Sha256
import Verkos.Lib.Window
import Verkos.Urverk.Respawn
import Verkos.Vbzip2.Encode
import Verkos.Vbzip2.Limits
import Verkos.Vlogin.LineEdits
import Verkos.Vpk.Digest
import Verkos.Vpk.Resolve
import Verkos.Vtar.LongNames
import Verkos.Vzip.Archive
import Verkos.Vzip.RoundTrip
import Verkos.Lib.Links
import Verkos.Lib.Paths
import Verkos.Vcpio.Extract
import Verkos.Vcpio.Inside
import Verkos.Vpk.FromArchive
import Verkos.Vdhcp.Build
import Verkos.Vdhcp.Servers
import Verkos.Sav.Constants
import Verkos.Sav.Promises
import Verkos.Stam.Nesting
import Verkos.Vawk.ForIn
import Verkos.Vawk.Gsub
import Verkos.Vsed.Ranges
