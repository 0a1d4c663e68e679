import Chickadee.Ahci.Slots
import Chickadee.Alloc.Coalesced
import Chickadee.Alloc.Detection
import Chickadee.Alloc.SlabCount
import Chickadee.Bufcache.Got
import Chickadee.Bufcache.Lru
import Chickadee.Chkfs.Argv
import Chickadee.Chkfs.Cd
import Chickadee.Chkfs.Create
import Chickadee.Chkfs.Reading
import Chickadee.Chkfs.Search
import Chickadee.Elf.Agree
import Chickadee.Fd.InFlight
import Chickadee.Fs.OpenCount
import Chickadee.Futex.Exclusion
import Chickadee.Futex.Isolation
import Chickadee.Journal.Checked
import Chickadee.Journal.Order
import Chickadee.Keyboard.Delivery
import Chickadee.Lists.Sequences
import Chickadee.Lock.Rwlock
import Chickadee.Memrange.Types
import Chickadee.Net.Bounds
import Chickadee.Net.Fragments
import Chickadee.Net.RxRing
import Chickadee.Pipe.Create
import Chickadee.Pipe.Fifo
import Chickadee.Ptable.RangePerm
import Chickadee.Ptable.System
import Chickadee.Shell.Splits
import Chickadee.Strings.Subject
import Chickadee.Thgrp.Cleanup
import Chickadee.Thgrp.Reaped
import Chickadee.Uds.Deliver
import Chickadee.Vm.Listing
import Chickadee.Vm.Pathname
import Chickadee.Wait.HeapRun
import Chickadee.Wait.Lost
import Chickadee.Wait.Msleep
import Chickadee.Crc.Crc32c
