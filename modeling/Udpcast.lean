import Udpcast.Lib.Buffer
import Udpcast.Lib.GaussJordan
import Udpcast.Lib.Cauchy
import Udpcast.Lib.Run
import Udpcast.Lib.Ring
import Udpcast.Lib.Fold
import Udpcast.Lib.Bytes
import Udpcast.Lib.Region
import Udpcast.Fec.Tables
import Udpcast.Fec.InvertMat
import Udpcast.Fec.Coder
import Udpcast.Fec.Bounds
import Udpcast.Produconsum
import Udpcast.Bitmap
import Udpcast.Protocol
import Udpcast.Fifo
import Udpcast.Transfer
import Udpcast.ReceiveData.Model
import Udpcast.ReceiveData.Steps
import Udpcast.ReceiveData.Queues
import Udpcast.ReceiveData.Table
import Udpcast.ReceiveData.Regions
import Udpcast.ReceiveData.Deliveries
import Udpcast.ReceiveData.End
import Udpcast.ReceiveData.Answers
import Udpcast.Participants
import Udpcast.SendData.Model
import Udpcast.SendData.Steps
import Udpcast.SendData.Table
import Udpcast.SendData.Acks
import Udpcast.SendData.Queues
import Udpcast.SendData.Cuts
import Udpcast.SendData.Intact
import Udpcast.Contents
import Udpcast.SendData.Packets
import Udpcast.ReceiveData.Slots
import Udpcast.ReceiveData.Holding
import Udpcast.ReceiveData.Arrivals
import Udpcast.ReceiveData.Reassembly
import Udpcast.ReceiveData.Recovery
import Udpcast.ReceiveData.Stored
import Udpcast.ReceiveData.Survival
import Udpcast.ReceiveData.Room
import Udpcast.Backpressure
import Udpcast.ReceiveData.Stream
import Udpcast.ReceiveData.InTurn
import Udpcast.SendData.Config
import Udpcast.SendData.Partition
import Udpcast.SendData.DropBudget
import Udpcast.SendData.Rounds
import Udpcast.SendData.Answers
import Udpcast.SendData.Parity
import Udpcast.SendData.HalfDuplex
import Udpcast.SendData.Returns
import Udpcast.EndToEnd
import Udpcast.Completion
import Udpcast.Lockstep
import Udpcast.Rate
import Udpcast.Counters
import Udpcast.Wire
import Udpcast.ClientTable
import Udpcast.DiskIo
import Udpcast.Negotiate.Sender
import Udpcast.Negotiate.Receiver
import Udpcast.Negotiate.Start
import Udpcast.Negotiate.Late
import Udpcast.Negotiate.Rendezvous
import Udpcast.SendData.RoundNumbers
import Udpcast.SendData.OnWire
import Udpcast.Session
import Udpcast.ReceiveData.Have
import Udpcast.SendData.Requests
import Udpcast.Repair
import Udpcast.Lib.Accounts
import Udpcast.SendData.Progress
import Udpcast.SendData.Waits
import Udpcast.SendData.Silence
